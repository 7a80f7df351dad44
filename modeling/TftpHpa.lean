import TftpHpa.Lib.Transition
import TftpHpa.Lib.Blocks
import TftpHpa.Lib.SerialNumber
import TftpHpa.Lib.RingIndex
import TftpHpa.Lib.Window
import TftpHpa.Lib.Channel
import TftpHpa.Lib.WindowProtocol
import TftpHpa.Wire.Packet
import TftpHpa.Io.Basic
import TftpHpa.Io.Netascii
import TftpHpa.Io.Reader
import TftpHpa.Io.ReaderRing
import TftpHpa.Xfer.Basic
import TftpHpa.Xfer.Send
import TftpHpa.Xfer.Sending
import TftpHpa.Xfer.Recv
import TftpHpa.Xfer.SendTrace
import TftpHpa.Xfer.RecvTrace
import TftpHpa.Net.Basic
import TftpHpa.Net.Refine
import TftpHpa.Net.Simulation
import TftpHpa.Net.Safety
import TftpHpa.Net.Progress
import TftpHpa.Lib.Decimal
import TftpHpa.Common.Text
import TftpHpa.Common.Options
import TftpHpa.Daemon.Options
import TftpHpa.Daemon.Negotiate
import TftpHpa.Daemon.Request
import TftpHpa.Daemon.RuleFile
import TftpHpa.Client.Request
import TftpHpa.Client.Agree
import TftpHpa.Daemon.Path
import TftpHpa.Daemon.Access
import TftpHpa.Io.Writer
import TftpHpa.Io.WriterRing
import TftpHpa.Xfer.Receiving
import TftpHpa.Daemon.Upload
import TftpHpa.Io.Reading
import TftpHpa.Io.Writing
import TftpHpa.Lib.Terminated
import TftpHpa.Daemon.Parser
import TftpHpa.Daemon.Oack
import TftpHpa.Daemon.Limits
import TftpHpa.Client.RoundTrip
import TftpHpa.Client.Answer
import TftpHpa.Daemon.Listen
import TftpHpa.Daemon.Signals
import TftpHpa.Daemon.Remap
import TftpHpa.Daemon.RemapManual
import TftpHpa.Daemon.PathBuffer
import TftpHpa.Daemon.RemapSteps
import TftpHpa.Lib.Substitute
import TftpHpa.Daemon.RemapGlobal
import TftpHpa.Daemon.Genmatch
import TftpHpa.Daemon.GenmatchText
import TftpHpa.Daemon.GenmatchBuffer
import TftpHpa.Daemon.AccessFiles
import TftpHpa.Xfer.Unthreaded
import TftpHpa.Daemon.UploadLimit
import TftpHpa.Lib.Datagram
import TftpHpa.Xfer.Oversize
import TftpHpa.Client.Download
import TftpHpa.Xfer.Lockstep
import TftpHpa.Daemon.Normalize
import TftpHpa.Common.Error
import TftpHpa.Daemon.Nak
import TftpHpa.Lib.Probe
import TftpHpa.Common.Socket
import TftpHpa.Common.Number
import TftpHpa.Client.Settings
import TftpHpa.Client.Sent
import TftpHpa.Daemon.Capabilities
import TftpHpa.Lib.BinarySearch
import TftpHpa.Common.Pollset
import TftpHpa.Common.Caseless
import TftpHpa.Common.Blksize
import TftpHpa.Common.Deadline
import TftpHpa.Lib.Buffer
import TftpHpa.Lib.CommonPrefix
import TftpHpa.Client.Command
import TftpHpa.Lib.Peers
import TftpHpa.Daemon.Sendfile
import TftpHpa.Client.Terms
import TftpHpa.Net.Mirror
import TftpHpa.Session.Download
import TftpHpa.Session.DownloadSafe
import TftpHpa.Client.Put
import TftpHpa.Session.Upload
import TftpHpa.Session.UploadSafe
import TftpHpa.Lib.Projection
import TftpHpa.Session.Shared
import TftpHpa.Session.Commands
import TftpHpa.Lib.Locking
import TftpHpa.Daemon.Sharing
import TftpHpa.Daemon.AccessSteps
import TftpHpa.Daemon.SharingSafe
import TftpHpa.Daemon.Writers
import TftpHpa.Lib.Backoff
import TftpHpa.Xfer.Dues
import TftpHpa.Daemon.Answer
import TftpHpa.Session.Recvfile
import TftpHpa.Session.Amount
import TftpHpa.Lib.Heap
import TftpHpa.Client.Files
import TftpHpa.Client.Hosts
import TftpHpa.Client.Each
import TftpHpa.Client.Copies
import TftpHpa.Client.Status
import TftpHpa.Daemon.LocalAddress
import TftpHpa.Common.Address
import TftpHpa.Lib.Writes
