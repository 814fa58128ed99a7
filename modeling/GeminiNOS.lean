import GeminiNOS.Scheduler.FdTable
import GeminiNOS.Scheduler.TimerTermination
import GeminiNOS.Scheduler.EpollTimeout
import GeminiNOS.Scheduler.TimerBounds
import GeminiNOS.Scheduler.TimerStop
import GeminiNOS.Scheduler.Wakeup
import GeminiNOS.Scheduler.LocalSend
import GeminiNOS.Kv.HashAgreement
import GeminiNOS.Kv.Refinement
import GeminiNOS.Kv.SlotOwnership
import GeminiNOS.Kv.ExposedValues
import GeminiNOS.Kv.KeySeparation
import GeminiNOS.Kv.Notification
import GeminiNOS.Kv.SubscriberNodes
import GeminiNOS.Kv.TableRegistry
import GeminiNOS.Kv.TableSizes
import GeminiNOS.Kv.Subscriptions
import GeminiNOS.Ipc.ReceivedOnly
import GeminiNOS.Ipc.EdgeTriggered
import GeminiNOS.Ipc.DoorbellAnswered
import GeminiNOS.Shm.BlockPoolSound
import GeminiNOS.Buffer.BestFit
import GeminiNOS.Shm.MpscQueueOrder
import GeminiNOS.Shm.NodeRegistrySound
import GeminiNOS.Ipc.SendWindowSound
import GeminiNOS.Messaging.RefCounted
import GeminiNOS.Messaging.NoSilentLoss
import GeminiNOS.Ipc.TxOrder
import GeminiNOS.Ipc.Backpressure
import GeminiNOS.Ipc.Handshake
import GeminiNOS.Ipc.TransportOrderSound
import GeminiNOS.Ipc.SocketOwnership
import GeminiNOS.Log.LogConservation
import GeminiNOS.Component.StartOrder
import GeminiNOS.Service.Dispatch
import GeminiNOS.Service.RoutesSound
import GeminiNOS.Component.UnloadRace
import GeminiNOS.Manifest.RouteAgreement
import GeminiNOS.Manifest.YamlAgreement
import GeminiNOS.Manifest.GeneratorReads
import GeminiNOS.Component.UnloadComplete
import GeminiNOS.Component.ReloadOutcome
import GeminiNOS.Component.LoadAfterUnload
import GeminiNOS.Scheduler.FdMirror
import GeminiNOS.Shm.InitFailure
import GeminiNOS.Manifest.Dependencies
import GeminiNOS.Manifest.Identifiers
import GeminiNOS.Manifest.LoaderArrays
import GeminiNOS.Cli.LineBounds
import GeminiNOS.Buffer.Headroom
import GeminiNOS.Kv.Linearizable
import GeminiNOS.Kv.Deinit
import GeminiNOS.Models.StateRecovery
import GeminiNOS.Models.PerfTest
import GeminiNOS.Scheduler.TimerPace
import GeminiNOS.Log.LogFilter
import GeminiNOS.Cli.Shell
import GeminiNOS.Cli.Prompt
import GeminiNOS.Component.Shutdown
import GeminiNOS.Manifest.Upkeep
import GeminiNOS.Manifest.OneThread
import GeminiNOS.Shm.Publication
import GeminiNOS.Messaging.ComponentCode
