import TelnetTlsServer.Lib.Transition
import TelnetTlsServer.Lib.QMethod
import TelnetTlsServer.Lib.SlidingWindow
import TelnetTlsServer.Lib.SlotTable
import TelnetTlsServer.Lib.Buffer
import TelnetTlsServer.Lib.TelnetGrammar
import TelnetTlsServer.Codes
import TelnetTlsServer.Negotiation.TelnetQ
import TelnetTlsServer.Negotiation.Network
import TelnetTlsServer.Store.PlayerRules
import TelnetTlsServer.Policy.SecurityPolicy
import TelnetTlsServer.Policy.Lockout
import TelnetTlsServer.Policy.GuessLimit
import TelnetTlsServer.Policy.CreationLimit
import TelnetTlsServer.Policy.UnboundedPolicy
import TelnetTlsServer.Text.TerminalText
import TelnetTlsServer.Session.Terminal
import TelnetTlsServer.Session.Wire
import TelnetTlsServer.Session.OutputFraming
import TelnetTlsServer.Session.Capability
import TelnetTlsServer.Session.Login
import TelnetTlsServer.Session.Parser
import TelnetTlsServer.Session.Chunking
import TelnetTlsServer.Session.Bounds
import TelnetTlsServer.Session.Effects
import TelnetTlsServer.Session.Typing
import TelnetTlsServer.Session.Dialogue
import TelnetTlsServer.Session.Frame
import TelnetTlsServer.Session.Steady
import TelnetTlsServer.Session.Refinement
import TelnetTlsServer.Session.Invariant
import TelnetTlsServer.Session.Authentication
import TelnetTlsServer.Session.LineAssembly
import TelnetTlsServer.Policy.Admission
import TelnetTlsServer.Session.HashGuard
import TelnetTlsServer.Session.Conduct
import TelnetTlsServer.Session.Lines
import TelnetTlsServer.Session.Deeds
import TelnetTlsServer.Session.Echo
import TelnetTlsServer.Session.Lifecycle
import TelnetTlsServer.Session.Gmcp
import TelnetTlsServer.Session.View
import TelnetTlsServer.Session.Probes
import TelnetTlsServer.Session.Knowledge
import TelnetTlsServer.Session.Coherence
import TelnetTlsServer.Session.Mnes
import TelnetTlsServer.Session.Probing
import TelnetTlsServer.Lib.Interleaving
import TelnetTlsServer.Store.Disk
import TelnetTlsServer.Store.Creation
import TelnetTlsServer.Store.Writing
import TelnetTlsServer.Store.RecordFormat
import TelnetTlsServer.Store.Verification
import TelnetTlsServer.Store.Credentials
import TelnetTlsServer.Session.Discovery
import TelnetTlsServer.Lib.EditScript
import TelnetTlsServer.Ssh.Channel
import TelnetTlsServer.Ssh.Editor
import TelnetTlsServer.Ssh.SameLine
import TelnetTlsServer.Audit.AuditLog
import TelnetTlsServer.Audit.Rotation
import TelnetTlsServer.Server.Connections
import TelnetTlsServer.Server.Accounting
import TelnetTlsServer.Server.Threads
import TelnetTlsServer.Server.Runs
import TelnetTlsServer.Lib.Utf8
import TelnetTlsServer.Text.Utf8
import TelnetTlsServer.Session.Subnegotiation
import TelnetTlsServer.Session.GmcpGrammar
import TelnetTlsServer.Session.Mssp
import TelnetTlsServer.Session.EnvironGrammar
import TelnetTlsServer.Session.EnvironEffects
import TelnetTlsServer.Session.Links
import TelnetTlsServer.Ssh.Links
import TelnetTlsServer.Lib.FixedWindow
import TelnetTlsServer.Policy.RetryHints
import TelnetTlsServer.Session.Rates
import TelnetTlsServer.Ssh.Capabilities
import TelnetTlsServer.Ssh.LineReset
import TelnetTlsServer.Ssh.Newlines
import TelnetTlsServer.Ssh.Rates
import TelnetTlsServer.Store.Identity
import TelnetTlsServer.Store.RoundTrip
import TelnetTlsServer.Text.Sanitize
import TelnetTlsServer.Policy.PeerBackoff
import TelnetTlsServer.Session.ReportText
import TelnetTlsServer.Store.PasswordPolicy
import TelnetTlsServer.Client.Display
import TelnetTlsServer.Ssh.Admission
import TelnetTlsServer.Store.Accounts
import TelnetTlsServer.Server.Logins
import TelnetTlsServer.Client.Pairing
import TelnetTlsServer.Client.Answers
