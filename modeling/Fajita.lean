import Fajita.Stranding
import Fajita.Agreement
import Fajita.Steering
import Fajita.Exclusive
import Fajita.Ownership
import Fajita.RefCount
import Fajita.Relation
import Fajita.Affinity
import Fajita.Buffers
import Fajita.Placement
import Fajita.LoadBound
import Fajita.Faults
import Fajita.Shares
import Fajita.HashTables
import Fajita.Hashing
import Fajita.Recording
import Fajita.Portions
import Fajita.Counting
import Fajita.Counters
import Fajita.Requests
import Fajita.Tasks
import Fajita.Chain
import Fajita.Rotation
import Fajita.Series
import Fajita.SourceCounter
import Fajita.Endpoint
import Fajita.Bursts
import Fajita.Distinct
import Fajita.WellFormed
import Fajita.Drain
import Fajita.TakingBack
import Fajita.Snapping
import Fajita.Alone
import Fajita.Bounds
import Fajita.Rest
import Fajita.FlowOrder
import Fajita.Standing
import Fajita.Downstream
import Fajita.Sizing
import Fajita.Turns
import Fajita.Delivery
import Fajita.Baseline
import Fajita.Sending
