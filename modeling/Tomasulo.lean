import Tomasulo.Command
import Tomasulo.Main
import Tomasulo.Proofs.Dataflow
import Tomasulo.Proofs.ProgramOrder
import Tomasulo.Proofs.Progress
import Tomasulo.Proofs.Arbitration
import Tomasulo.Proofs.Lawful
import Tomasulo.Proofs.Comparison
import Tomasulo.Proofs.Capacity
import Tomasulo.Proofs.Extension
import Tomasulo.Proofs.Safety
import Tomasulo.Proofs.Placement
import Tomasulo.Proofs.Occupancy
import Tomasulo.Proofs.Traps
import Tomasulo.Proofs.LastEvent
import Tomasulo.Proofs.Refusal
import Tomasulo.Proofs.Surplus
import Tomasulo.Proofs.Limits
import Tomasulo.Proofs.Rearrangement
import Tomasulo.Proofs.Twins
import Tomasulo.Proofs.Milestones
import Tomasulo.Proofs.Log
import Tomasulo.Proofs.Balance
import Tomasulo.Proofs.Rerun
import Tomasulo.Proofs.MeanWait
import Tomasulo.Proofs.WordSize
import Tomasulo.Proofs.Json.Grammar
import Tomasulo.Proofs.Json.Scan
import Tomasulo.Proofs.Json.Decode
import Tomasulo.Proofs.Json.Members
import Tomasulo.Proofs.Json.Written
import Tomasulo.Proofs.TraceText
import Tomasulo.Proofs.AllOrNothing
import Tomasulo.Proofs.ConfigText
import Tomasulo.Proofs.Json.Objects
import Tomasulo.Proofs.RecordText
import Tomasulo.Proofs.TimelineText
import Tomasulo.Proofs.ReportText
import Tomasulo.Proofs.LogText
