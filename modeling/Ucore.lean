import Ucore.Proofs.PageTotals
import Ucore.Proofs.SchedRun
import Ucore.Proofs.SemLedger
import Ucore.Proofs.SlabRun
import Ucore.Proofs.PidUnique
import Ucore.Proofs.SharedBacking
import Ucore.Proofs.FrameRun
import Ucore.Proofs.FaultRace
import Ucore.Proofs.ForkStart
import Ucore.Proofs.ExitNotice
import Ucore.Proofs.ModuleUse
import Ucore.Proofs.ExitStatus
import Ucore.Proofs.PipeStream
import Ucore.Proofs.ProcessForest
import Ucore.Proofs.Ownership
import Ucore.Proofs.RelocPairs
import Ucore.Proofs.HeapRun
import Ucore.Proofs.FileAccount
import Ucore.Proofs.MboxRun
import Ucore.Proofs.LockOrder
import Ucore.Proofs.LockOwner
import Ucore.Proofs.TimerCpus
import Ucore.Proofs.PinnedCpus
import Ucore.Proofs.StdinQueue
import Ucore.Proofs.MountedOnce
import Ucore.Proofs.PrintedFields
