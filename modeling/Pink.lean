import Pink.Backend.Idle
import Pink.Backend.Locks
import Pink.Backend.Messages
import Pink.Backend.Thread
import Pink.Client.Cli
import Pink.Client.Connect
import Pink.Client.Indexes
import Pink.Client.Refused
import Pink.Client.Thread
import Pink.Http.Announced
import Pink.Http.Assembly
import Pink.Http.Buffer
import Pink.Http.Conn
import Pink.Http.Counter
import Pink.Http.Delivery
import Pink.Http.Forms
import Pink.Http.Handlers
import Pink.Http.Heads
import Pink.Http.Lengths
import Pink.Http.Params
import Pink.Http.Prints
import Pink.Http.Replies
import Pink.Http.Request
import Pink.Http.Sending
import Pink.Http.Simple
import Pink.Http.SimpleConn
import Pink.Http.SimpleReplies
import Pink.Http.Targets
import Pink.Http.Turns
import Pink.Http.Uploads
import Pink.Lib.Chunks
import Pink.Lib.Handles
import Pink.Lib.Mutex
import Pink.Lib.Reads
import Pink.Lib.RoundRobin
import Pink.Lib.Runs
import Pink.Pb.Bounds
import Pink.Pb.Client
import Pink.Pb.Closing
import Pink.Pb.Conn
import Pink.Pb.Ending
import Pink.Pb.Frames
import Pink.Pb.Replies
import Pink.Pb.Session
import Pink.PubSub.Handshake
import Pink.PubSub.Leaving
import Pink.PubSub.Matching
import Pink.PubSub.Publish
import Pink.PubSub.Registered
import Pink.PubSub.Registry
import Pink.PubSub.Relation
import Pink.PubSub.Sections
import Pink.Redis.Callbacks
import Pink.Redis.Cli
import Pink.Redis.Conn
import Pink.Redis.Consumed
import Pink.Redis.Dealt
import Pink.Redis.Feed
import Pink.Redis.Format
import Pink.Redis.Fragment
import Pink.Redis.Inline
import Pink.Redis.Inside
import Pink.Redis.Limit
import Pink.Redis.Nested
import Pink.Redis.Newline
import Pink.Redis.Parser
import Pink.Redis.Pieces
import Pink.Redis.Pipeline
import Pink.Redis.Pointers
import Pink.Redis.Quoted
import Pink.Redis.Reading
import Pink.Redis.Recv
import Pink.Redis.Refine
import Pink.Redis.RoundTrip
import Pink.Redis.Safety
import Pink.Redis.Scan
import Pink.Redis.Scanner
import Pink.Redis.Serialize
import Pink.Redis.Served
import Pink.Redis.Session
import Pink.Redis.Split2args
import Pink.Redis.Tokens
import Pink.Redis.Totlen
import Pink.Redis.Window
import Pink.Redis.Wire
import Pink.Server.Answers
import Pink.Server.Conns
import Pink.Server.Cron
import Pink.Server.Dispatch
import Pink.Server.Handed
import Pink.Server.Kills
import Pink.Server.Owners
import Pink.Server.Threads
import Pink.Server.Workers
import Pink.Tasks.Accounting
import Pink.Tasks.Cycles
import Pink.Tasks.Lock
import Pink.Tasks.Machine
import Pink.Tasks.Settling
import Pink.Tasks.Stopping
