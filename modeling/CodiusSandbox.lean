import CodiusSandbox.Lib.Wp
import CodiusSandbox.Lib.PrefixTable
import CodiusSandbox.Lib.Lexical
import CodiusSandbox.Basic
import CodiusSandbox.Ptrace
import CodiusSandbox.PtraceProofs
import CodiusSandbox.Filesystem
import CodiusSandbox.Vfs
import CodiusSandbox.VfsProofs
import CodiusSandbox.Survival
import CodiusSandbox.Reachability
import CodiusSandbox.Mediation
import CodiusSandbox.Seccomp
import CodiusSandbox.Mounts
import CodiusSandbox.OpenFile
import CodiusSandbox.Resolution
import CodiusSandbox.Relative
import CodiusSandbox.NativeFilesystem
import CodiusSandbox.Json
import CodiusSandbox.JsonProofs
import CodiusSandbox.Ipc
import CodiusSandbox.RoundTrip
import CodiusSandbox.HostIpc
import CodiusSandbox.Framing
import CodiusSandbox.Results
import CodiusSandbox.Lib.Runs
import CodiusSandbox.SyncCall
import CodiusSandbox.Descriptors
import CodiusSandbox.Nesting
import CodiusSandbox.DirentBuilder
import CodiusSandbox.WriteData
import CodiusSandbox.Exchange
import CodiusSandbox.NodeFilesystem
import CodiusSandbox.Lib.Tiling
import CodiusSandbox.Offsets
import CodiusSandbox.ErrorReports
import CodiusSandbox.ChildMemory
import CodiusSandbox.Sandbox
import CodiusSandbox.HostMemory
import CodiusSandbox.SameFile
import CodiusSandbox.WorkingDirectory
import CodiusSandbox.Boundaries
import CodiusSandbox.CurrentDirectory
import CodiusSandbox.Scratch
import CodiusSandbox.HandleTrap
import CodiusSandbox.WaitLoop
import CodiusSandbox.ExecChild
import CodiusSandbox.InheritedFds
import CodiusSandbox.Positions
import CodiusSandbox.Replies
import CodiusSandbox.Copying
import CodiusSandbox.PathNames
import CodiusSandbox.RequestData
import CodiusSandbox.ResultBuffer
import CodiusSandbox.Lib.Records
import CodiusSandbox.Dirents
import CodiusSandbox.SandboxPrivate
import CodiusSandbox.SeccompStop
import CodiusSandbox.ExecEvent
import CodiusSandbox.DirentLengths
import CodiusSandbox.NodeBuffers
import CodiusSandbox.OpenPositions
import CodiusSandbox.Lib.Utf8
import CodiusSandbox.Stdio
import CodiusSandbox.Lib.Utf8Bytes
import CodiusSandbox.Lib.JsonGrammar
import CodiusSandbox.JsonUnicode
import CodiusSandbox.StringBuffer
import CodiusSandbox.JsonParser
import CodiusSandbox.JsonReading
import CodiusSandbox.JsonNodes
import CodiusSandbox.JsonDecode
import CodiusSandbox.JsonEmitter
import CodiusSandbox.JsonEmitting
import CodiusSandbox.TextCodec
import CodiusSandbox.Lib.LinkedList
import CodiusSandbox.JsonLinks
import CodiusSandbox.JsonLinkProofs
import CodiusSandbox.JsonLinkRemoval
import CodiusSandbox.JsonRuns
import CodiusSandbox.JsonCheck
import CodiusSandbox.DecodedNodes
import CodiusSandbox.Session
import CodiusSandbox.Confinement
