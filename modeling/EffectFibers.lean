import EffectFibers.Main
import EffectFibers.Program.Report
import EffectFibers.Worker.Identity
import EffectFibers.Worker.Queue
import EffectFibers.Proofs.StructuredConcurrency
import EffectFibers.Proofs.WakeUps
import EffectFibers.Proofs.Meaning.Run
import EffectFibers.Proofs.Regions
import EffectFibers.Proofs.Finalizers
import EffectFibers.Proofs.Resources
import EffectFibers.Proofs.BudgetEnds
import EffectFibers.Proofs.ExitsOnce
import EffectFibers.Proofs.AbandonedWaits
import EffectFibers.Proofs.Changes.Spares
import EffectFibers.Proofs.Groups.Arrivals
import EffectFibers.Proofs.Races
import EffectFibers.Proofs.ManyAtOnce
import EffectFibers.Proofs.LayersOnce
import EffectFibers.Proofs.PlansChecked
import EffectFibers.Proofs.WaitersTold
import EffectFibers.Proofs.WaitCycles
import EffectFibers.Proofs.WaitsDecided
import EffectFibers.Proofs.ShutdownDrains
import EffectFibers.Proofs.ServicesFound
import EffectFibers.Proofs.Scopes
import EffectFibers.Proofs.CausesPass
import EffectFibers.Proofs.OperandsChecked
import EffectFibers.Proofs.InternalDefects
import EffectFibers.Proofs.PlansExact
import EffectFibers.Proofs.Results.Course
import EffectFibers.Proofs.Results.Members
import EffectFibers.Proofs.Results.Plain
import EffectFibers.Proofs.LimitsDoNotMatter
import EffectFibers.Proofs.Retries
import EffectFibers.Proofs.Repeats
import EffectFibers.Proofs.InterruptsReachDown
import EffectFibers.Proofs.ExportsShown
import EffectFibers.Proofs.Delays
import EffectFibers.Proofs.TimerQueues
import EffectFibers.Proofs.SleepersAndTimers
import EffectFibers.Proofs.LayerLaws
import EffectFibers.Proofs.SlicesEnd
import EffectFibers.Proofs.LogLines
import EffectFibers.Proofs.AttemptNumbers
