import M6t.Reorder
import M6t.RegistryRuns
import M6t.ScopeWrites
import M6t.LabelEdits
import M6t.TargetPath
import M6t.Subtree
import M6t.Declared
import M6t.AimRace
import M6t.PipelineTargets
import M6t.OutboundHoles
import M6t.TerminalStream
import M6t.TerminalEnd
import M6t.PtySession
import M6t.PtyManager
import M6t.KubePhases
import M6t.KubeSignals
import M6t.ProjectWatches
import M6t.EditorBuffer
import M6t.EditorMirror
import M6t.EditorFile
import M6t.FileText
import M6t.AtomicWrite
import M6t.SessionHydration
import M6t.SessionRestore
import M6t.EventChannel
import M6t.Resolution
import M6t.StoredScopes
import M6t.TerminalSession
import M6t.KubeCheck
import M6t.PanelHealth
import M6t.StripSelections
import M6t.TreeReveal
import M6t.EditorBlame
import M6t.ProjectRemoval
import M6t.GitBlameDamage
import M6t.GitChangedRows
import M6t.GitTracked
import M6t.BlameGutter
import M6t.DiffLines
import M6t.EntryPaths
import M6t.SessionFile
import M6t.TreeOrders
import M6t.PollWatcher
import M6t.FsWatcher
import M6t.Manifest
import M6t.WatchCoverage
import M6t.WorktreeOps
import M6t.ManifestScan
import M6t.StreamWire
import M6t.ManifestIcons
import M6t.GitControls
import M6t.ProjectDrag
import M6t.SessionWrites
import M6t.StreamServer
import M6t.ClusterHealth
import M6t.ProjectStrip
