import Provisioning.Backend.Demo
import Provisioning.Backend.Scripted
import Provisioning.CommandLine.Run
import Provisioning.Main
import Provisioning.Run.Engine
import Provisioning.Proofs.Fallible
import Provisioning.Proofs.Levels
import Provisioning.Proofs.Plan.Compilation
import Provisioning.Proofs.Plan.Schedule
import Provisioning.Proofs.Plan.Placement
import Provisioning.Proofs.Rom
import Provisioning.Proofs.Run.Calls
import Provisioning.Proofs.Run.Place
import Provisioning.Proofs.Run.Safety
import Provisioning.Proofs.Run.Law
import Provisioning.Proofs.Run.Course
import Provisioning.Proofs.Plan.Order
import Provisioning.Proofs.Run.Custody
import Provisioning.Proofs.Run.Deferral
import Provisioning.Proofs.Declare.References
import Provisioning.Proofs.Run.Availability
import Provisioning.Proofs.Backend.Store
import Provisioning.Proofs.Run.InOrder
import Provisioning.Proofs.Run.Budget
import Provisioning.Proofs.Run.Termination
import Provisioning.Proofs.Run.Ordering
import Provisioning.Proofs.Run.Convergence
import Provisioning.Proofs.Run.Faithful
import Provisioning.Proofs.Run.Steady
import Provisioning.Proofs.Run.Room
import Provisioning.Proofs.Run.Readiness
import Provisioning.Proofs.Plan.Recompile
import Provisioning.Proofs.Backend.Shelf
import Provisioning.Proofs.Run.Handover
import Provisioning.Proofs.Run.Idempotence
import Provisioning.Proofs.Run.Presence
import Provisioning.Proofs.Run.Recovery
import Provisioning.Proofs.Code.Artifact
import Provisioning.Proofs.Plan.Succession
import Provisioning.Proofs.Run.Footing
import Provisioning.Proofs.Run.Succession
import Provisioning.Proofs.Run.Talk
import Provisioning.Proofs.Run.Alike
import Provisioning.Proofs.Plan.Healing
import Provisioning.Proofs.Run.Probe
import Provisioning.Proofs.Run.Healing
import Provisioning.Proofs.Plan.Reorder
import Provisioning.Proofs.Run.Replies
import Provisioning.Proofs.Run.Apart
import Provisioning.Proofs.Run.Confluence
import Provisioning.Proofs.Addresses
import Provisioning.Proofs.Cycles
import Provisioning.Proofs.Run.Outputs
import Provisioning.Proofs.Run.Removed
import Provisioning.Proofs.Run.Origin
import Provisioning.Proofs.Readback
import Provisioning.Proofs.Run.Conduct
import Provisioning.Proofs.Run.Laps
import Provisioning.Proofs.Run.Polling
import Provisioning.Proofs.Run.Checkpoint
import Provisioning.Proofs.Run.Accounts
import Provisioning.Proofs.Run.Instalments
import Provisioning.Proofs.Run.Isolation
import Provisioning.Proofs.Run.InPlace
import Provisioning.Proofs.Plan.Acceptance
import Provisioning.Proofs.Plan.Coverage
import Provisioning.Proofs.Code.Reading
import Provisioning.Proofs.PlanFile
