import GoIpc.Lib.Census
import GoIpc.Lib.Layout
import GoIpc.Lib.Machine
import GoIpc.Lib.Order
import GoIpc.Lib.Parser
import GoIpc.Lib.Simulation
import GoIpc.Lib.Stores
import GoIpc.Lib.Sums
import GoIpc.Lib.Tickets
import GoIpc.Lib.Tiling
import GoIpc.Lib.Utf8
import GoIpc.Ring.Machine
import GoIpc.Ring.Invariant
import GoIpc.Ring.Frames
import GoIpc.Ring.History
import GoIpc.Ring.ProducerSteps
import GoIpc.Ring.ReaderSteps
import GoIpc.Ring.Reclaim
import GoIpc.Ring.Delivery
import GoIpc.Ring.Full
import GoIpc.Ring.Refinement
import GoIpc.Ring.Progress
import GoIpc.Queue.Machine
import GoIpc.Queue.Senders
import GoIpc.Queue.Slots
import GoIpc.Queue.Attribution
import GoIpc.Queue.Steps
import GoIpc.Queue.Frames
import GoIpc.Queue.Receiver
import GoIpc.Queue.Attempts
import GoIpc.Queue.Recovery
import GoIpc.Queue.Keepers
import GoIpc.Queue.Refinement
import GoIpc.Queue.Verdicts
import GoIpc.Queue.Room
import GoIpc.Queue.Alive
import GoIpc.Queue.Wakeup
import GoIpc.Queue.Deaths
import GoIpc.Channel.Pipe
import GoIpc.Channel.Lane
import GoIpc.Channel.Link
import GoIpc.Channel.Exit
import GoIpc.Channel.Shut
import GoIpc.Close.Gate
import GoIpc.Close.Siblings
import GoIpc.Event.Socket
import GoIpc.Event.Tokens
import GoIpc.Event.Stranded
import GoIpc.Name.Lock
import GoIpc.Name.Channel
import GoIpc.Conn.Machine
import GoIpc.Conn.Deadlines
import GoIpc.Conn.Pair
import GoIpc.Conn.Stream
import GoIpc.Conn.Ends
import GoIpc.Service.Machine
import GoIpc.Service.Gone
import GoIpc.Service.Calls
import GoIpc.Service.Backlog
import GoIpc.Service.Adopt
import GoIpc.Seq.Buffer
import GoIpc.Seq.Go
import GoIpc.Seq.Siblings
import GoIpc.Seq.Segments
import GoIpc.Seq.Calls
import GoIpc.Seq.Admitted
import GoIpc.Seq.Scan
import GoIpc.Seq.Hostile
import GoIpc.Service.Answers
import GoIpc.Queue.Receives
import GoIpc.Event.Fifo
import GoIpc.Event.Deadline
import GoIpc.Process.Watch
import GoIpc.Channel.Unlink
import GoIpc.Seq.Sound
import GoIpc.Seq.Agreement
import GoIpc.Seq.Receive
import GoIpc.Seq.Recover
import GoIpc.Schema.Lex
import GoIpc.Schema.Parse
import GoIpc.Schema.Grammar
import GoIpc.Schema.Names
import GoIpc.Schema.Check
import GoIpc.Schema.Layout
import GoIpc.Schema.Order
import GoIpc.Codec.Walk
import GoIpc.Codec.Tail
import GoIpc.Codec.Go
import GoIpc.Codec.C
import GoIpc.Codec.Validators
import GoIpc.Codec.Ref
import GoIpc.Codec.Agree
import GoIpc.Codec.Cpp
import GoIpc.Codec.Py
import GoIpc.Schema.Sizes
import GoIpc.Schema.CNames
