import IecUtils.Asdu.Assembler
import IecUtils.Asdu.Carriage
import IecUtils.Asdu.Decode
import IecUtils.Asdu.Encoding
import IecUtils.Asdu.Limits
import IecUtils.Asdu.Measured
import IecUtils.Asdu.Readback
import IecUtils.Asdu.Timestamp
import IecUtils.Foundation.Allocation
import IecUtils.Foundation.Behaviour
import IecUtils.Foundation.Bracket
import IecUtils.Foundation.Builtins
import IecUtils.Foundation.Grouping
import IecUtils.Foundation.Handout
import IecUtils.Foundation.HeapOrder
import IecUtils.Foundation.Hex
import IecUtils.Foundation.Lines
import IecUtils.Foundation.LinkTable
import IecUtils.Foundation.NamedPipe
import IecUtils.Foundation.Ring
import IecUtils.Foundation.Rounding
import IecUtils.Foundation.Scan
import IecUtils.Foundation.Septets
import IecUtils.Foundation.SequenceNumber
import IecUtils.Foundation.Tally
import IecUtils.Foundation.Transition
import IecUtils.Foundation.Words
import IecUtils.Link.AckQueue
import IecUtils.Link.Acknowledgement
import IecUtils.Link.Chunking
import IecUtils.Link.Confirm
import IecUtils.Link.Deadlock
import IecUtils.Link.Duplex
import IecUtils.Link.EndMark
import IecUtils.Link.Endpoint
import IecUtils.Link.Frame
import IecUtils.Link.Handling
import IecUtils.Link.Handover
import IecUtils.Link.HexLine
import IecUtils.Link.HookRule
import IecUtils.Link.Ieclink
import IecUtils.Link.Lifecycle
import IecUtils.Link.LinkTest
import IecUtils.Link.Notification
import IecUtils.Link.Obligation
import IecUtils.Link.Options
import IecUtils.Link.Overflow
import IecUtils.Link.Reader
import IecUtils.Link.Reception
import IecUtils.Link.SendWindow
import IecUtils.Link.Session
import IecUtils.Link.StandardPeer
import IecUtils.Link.Stdin
import IecUtils.Link.StopGate
import IecUtils.Link.Stranded
import IecUtils.Link.Supervision
import IecUtils.Link.Teardown
import IecUtils.Link.Transparency
import IecUtils.Link.Watermark
import IecUtils.Proxy.Interrogation
import IecUtils.Proxy.Match
import IecUtils.Proxy.Poll
import IecUtils.Proxy.Readline
import IecUtils.Queue.Conservation
import IecUtils.Queue.Control
import IecUtils.Queue.Deadline
import IecUtils.Queue.Deferred
import IecUtils.Queue.Effects
import IecUtils.Queue.Escalation
import IecUtils.Queue.Files
import IecUtils.Queue.Flush
import IecUtils.Queue.FlushReturn
import IecUtils.Queue.Forwarding
import IecUtils.Queue.Heap
import IecUtils.Queue.HeapArray
import IecUtils.Queue.InFlight
import IecUtils.Queue.MainLoop
import IecUtils.Queue.Manager
import IecUtils.Queue.MessageArray
import IecUtils.Queue.Order
import IecUtils.Queue.Responses
import IecUtils.Queue.Restart
import IecUtils.Queue.Setup
import IecUtils.Queue.Shutdown
import IecUtils.Queue.Syslog
import IecUtils.Queue.TimerName
import IecUtils.Queue.Timers
import IecUtils.Queue.Trigger
import IecUtils.Scripts.Events
import IecUtils.Scripts.Interrogation
import IecUtils.Scripts.Putqueue
import IecUtils.Scripts.Quality
import IecUtils.Scripts.Waiting
import IecUtils.Sender.Delivery
import IecUtils.Sender.Sockwrite
import IecUtils.Sms.Deletion
import IecUtils.Sms.Join
import IecUtils.Sms.Listing
import IecUtils.Sms.Naming
import IecUtils.Sms.Parse
import IecUtils.Sms.Pdu
import IecUtils.Sms.Reassembly
import IecUtils.Sms.Record
import IecUtils.Sms.Report
import IecUtils.Sms.Shell
import IecUtils.Sms.Split
import IecUtils.Sms.Stamp
import IecUtils.Sms.Submit
