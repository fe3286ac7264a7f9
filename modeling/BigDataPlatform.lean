import BigDataPlatform.Lib.Pack
import BigDataPlatform.Lib.Framing
import BigDataPlatform.Lib.Transition
import BigDataPlatform.Lib.FileSystem
import BigDataPlatform.Lib.LastWrite
import BigDataPlatform.Lib.SortedLast
import BigDataPlatform.Lib.InsertAbsent
import BigDataPlatform.Lib.OrderedDict
import BigDataPlatform.Lib.JsonStrings
import BigDataPlatform.Lib.CreateOnce
import BigDataPlatform.Lib.Substitute
import BigDataPlatform.Lib.Decimal
import BigDataPlatform.Lib.Dictionary
import BigDataPlatform.Lib.Regex
import BigDataPlatform.Lib.Relabel
import BigDataPlatform.Lib.Glob
import BigDataPlatform.PcapAnnotate.Python
import BigDataPlatform.PcapAnnotate.Endpoints
import BigDataPlatform.PcapAnnotate.LinkLayer
import BigDataPlatform.PcapAnnotate.Main
import BigDataPlatform.PcapAnnotate.LoadNames
import BigDataPlatform.PcapAnnotate.LivePods
import BigDataPlatform.PcapAnnotate.CacheRuns
import BigDataPlatform.PcapAnnotate.ClassicPcap
import BigDataPlatform.PcapAnnotate.Pcapng
import BigDataPlatform.PcapAnnotate.Emission
import BigDataPlatform.PcapAnnotate.Preservation
import BigDataPlatform.PcapAnnotate.FieldWidths
import BigDataPlatform.PcapAnnotate.Streaming
import BigDataPlatform.PacketCapture.Files
import BigDataPlatform.PacketCapture.ShipCapture
import BigDataPlatform.PacketCapture.System
import BigDataPlatform.PacketCapture.Moves
import BigDataPlatform.PacketCapture.Sequential
import BigDataPlatform.PacketCapture.Invariant
import BigDataPlatform.PacketCapture.Preserved
import BigDataPlatform.PacketCapture.Gentle
import BigDataPlatform.PacketCapture.Runs
import BigDataPlatform.PacketCapture.Steady
import BigDataPlatform.PacketCapture.Sweep
import BigDataPlatform.PacketCapture.TwoUploaders
import BigDataPlatform.PacketCapture.Outage
import BigDataPlatform.PacketCapture.Shutdown
import BigDataPlatform.PacketCapture.EveryRun
import BigDataPlatform.PacketCapture.Snapshots
import BigDataPlatform.PacketCapture.Publication
import BigDataPlatform.PacketCapture.ObjectKeys
import BigDataPlatform.PacketCapture.DiskBound
import BigDataPlatform.PacketCapture.CapPipeline
import BigDataPlatform.PacketCapture.PodMapFile
import BigDataPlatform.HeadBackup
import BigDataPlatform.HeadBackup.Usable
import BigDataPlatform.HeadBackup.Retention
import BigDataPlatform.NodeLogs
import BigDataPlatform.NodeLogs.History
import BigDataPlatform.PodLogs.Pipeline
import BigDataPlatform.PodLogs.Discovery
import BigDataPlatform.PodLogs.LogPaths
import BigDataPlatform.PodLogs.Level
import BigDataPlatform.PodLogs.NodeFiles
import BigDataPlatform.PodLogs.Journal
import BigDataPlatform.HubbleFlows
import BigDataPlatform.NodeMetrics
import BigDataPlatform.SchemaInit.Awk
import BigDataPlatform.SchemaInit.ShortNumbers
import BigDataPlatform.SchemaInit.Selection
import BigDataPlatform.SchemaInit.Job
import BigDataPlatform.SchemaInit.VersionOrder
import BigDataPlatform.InitJobs.CatalogBody
import BigDataPlatform.InitJobs.GravitinoInit
import BigDataPlatform.GraphEnrichment.Components
import BigDataPlatform.GraphEnrichment.Enrich
import BigDataPlatform.GraphEnrichment.Rerun
import BigDataPlatform.GraphEnrichment.Integrity
