import Passdoq.Lib.Bytes
import Passdoq.Lib.OrdMap
import Passdoq.Lib.Eff
import Passdoq.Lib.Run
import Passdoq.Lib.Msgpack
import Passdoq.Lib.MsgpackFormat
import Passdoq.Lib.Decimal
import Passdoq.Lib.Peg
import Passdoq.Lib.Program
import Passdoq.Lib.Linear
import Passdoq.Lib.Heap
import Passdoq.Lib.Simulation
import Passdoq.Lib.Twins
import Passdoq.Crypto
import Passdoq.Vault.Entry
import Passdoq.Vault.Basic
import Passdoq.Vault.Cases
import Passdoq.Vault.LockState
import Passdoq.Vault.Codec
import Passdoq.Vault.Persistence
import Passdoq.Vault.KeyWrap
import Passdoq.Vault.World
import Passdoq.Vault.Overwrite
import Passdoq.Vault.Store
import Passdoq.Vault.Authentic
import Passdoq.Remote.Server
import Passdoq.Remote.Durable
import Passdoq.Runcom.Language
import Passdoq.Runcom.Lines
import Passdoq.Index.Xapian
import Passdoq.Index.Manager
import Passdoq.Index.Mirror
import Passdoq.Index.Search
import Passdoq.Vault.Bounds
import Passdoq.Vault.Lineage
import Passdoq.Cli.Application
import Passdoq.Cli.Status
import Passdoq.Cli.Tags
import Passdoq.Lib.Dfs
import Passdoq.Runcom.Config
import Passdoq.Runcom.Failure
import Passdoq.Runcom.Include
import Passdoq.Lib.Coupled
import Passdoq.Vault.Secrecy
import Passdoq.Index.Secrecy
import Passdoq.Vault.Atomic
import Passdoq.Runcom.Literals
import Passdoq.Runcom.Compose
import Passdoq.Modules.Ltdl
import Passdoq.Modules.Manager
import Passdoq.Modules.Balance
import Passdoq.Modules.Shared
import Passdoq.Daemon.Services
import Passdoq.Daemon.Lifecycle
import Passdoq.Daemon.Registry
import Passdoq.Lua.Events
import Passdoq.Memory.TimeLimited
import Passdoq.Runcom.Lined
import Passdoq.Runcom.Lookup
import Passdoq.Runcom.Expressible
import Passdoq.Lib.Unfold
import Passdoq.Runcom.Expand
import Passdoq.Index.Terms
import Passdoq.Index.Rebuild
import Passdoq.Index.Catalogue
import Passdoq.Index.Refinement
import Passdoq.Vault.Interface
import Passdoq.Vault.Notebook
import Passdoq.Vault.Client
import Passdoq.Cli.Console
import Passdoq.Cli.Agreement
import Passdoq.Cli.Sessions
import Passdoq.Vault.Veil
import Passdoq.Cli.Discreet
import Passdoq.Remote.Network
import Passdoq.Delivery.Manager
import Passdoq.Memory.Secure
import Passdoq.Daemon.Signals
