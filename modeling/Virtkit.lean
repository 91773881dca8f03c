import Virtkit.Admit.History
import Virtkit.Admit.HostRuns
import Virtkit.Atop.Days
import Virtkit.Build.BuildOrder
import Virtkit.Build.ChainKey
import Virtkit.Build.Dockerignore
import Virtkit.Compose.BootOrder
import Virtkit.Disk.Flatten
import Virtkit.Disk.WriteRuns
import Virtkit.Ext4.Layout
import Virtkit.Fleet.RolloutLife
import Virtkit.Hub.AuditLog
import Virtkit.Hub.CandidateOrder
import Virtkit.Hub.CeilingRuns
import Virtkit.Hub.HeadroomRuns
import Virtkit.Jobs.Carried
import Virtkit.Jobs.Output
import Virtkit.Jobs.Submission
import Virtkit.Mask.Sink
import Virtkit.Mask.UrlParams
import Virtkit.Node.ExchangeLife
import Virtkit.Node.HoldsLife
import Virtkit.Nv.CounterRuns
import Virtkit.Peer.TrialLife
import Virtkit.Registry.LeasedLocks
import Virtkit.Specs.ReadableRuns
import Virtkit.Switch.Frames
import Virtkit.Switch.Resolver
import Virtkit.Switch.Verdicts
import Virtkit.Tpm.Narrowing
import Virtkit.Uefi.Pkcs7
