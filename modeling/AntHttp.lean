import AntHttp.Bounds
import AntHttp.NullSafety
import AntHttp.Resolve
import AntHttp.Responses
import AntHttp.Frames
import AntHttp.Payload
import AntHttp.PluginManager
import AntHttp.Chains
import AntHttp.Pending
import AntHttp.Ownership
import AntHttp.Backends
import AntHttp.Handles
import AntHttp.Multipart
import AntHttp.Proxying
import AntHttp.Documents
import AntHttp.Enabled
import AntHttp.Segments
import AntHttp.Lists
import AntHttp.Lib.EreForm
import AntHttp.Patterns
import AntHttp.Queries
import AntHttp.Ports
import AntHttp.Connections
import AntHttp.Compression
import AntHttp.Limits
import AntHttp.Relaying
import AntHttp.Pings
import AntHttp.Fragments
import AntHttp.ShortReads
import AntHttp.Bodies
import AntHttp.Headers
import AntHttp.HeaderNames
import AntHttp.RuleOrder
import AntHttp.Templates
import AntHttp.FormFields
import AntHttp.Sending
import AntHttp.Transfers
import AntHttp.Descriptors
import AntHttp.Cookies
import AntHttp.Discarding
import AntHttp.Handshake
import AntHttp.UrlBuffers
import AntHttp.Polling
import AntHttp.Lib.FileTree
import AntHttp.RemoveAll
import AntHttp.Extensions
import AntHttp.MimeTypes
import AntHttp.Shutdown
import AntHttp.Sockets
import AntHttp.ReadBuf
import AntHttp.Identifiers
import AntHttp.Lib.Hash
import AntHttp.Lib.SecureHash
import AntHttp.Sha1
import AntHttp.Base64
import AntHttp.Ini
import AntHttp.Requests
import AntHttp.WsClient
import AntHttp.Upgrades
import AntHttp.Sessions
import AntHttp.Serving
import AntHttp.Posting
import AntHttp.Lib.Resources
import AntHttp.Settings
import AntHttp.Unloading
