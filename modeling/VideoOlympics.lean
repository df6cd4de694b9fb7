import VideoOlympics.Base.Machine
import VideoOlympics.Base.Refine
import VideoOlympics.Base.Reaches
import VideoOlympics.Base.Balance
import VideoOlympics.Base.Serial
import VideoOlympics.Base.Windows
import VideoOlympics.Base.Pairing
import VideoOlympics.Base.Dialogue
import VideoOlympics.Base.Dict
import VideoOlympics.Base.Side
import VideoOlympics.Base.Digest
import VideoOlympics.Base.Strip
import VideoOlympics.Base.Chunks
import VideoOlympics.Base.Buffer
import VideoOlympics.Base.Framer
import VideoOlympics.Base.Directory
import VideoOlympics.Base.Monitor
import VideoOlympics.Base.Json
import VideoOlympics.Base.Splice
import VideoOlympics.Base.Layout
import VideoOlympics.Base.Http
import VideoOlympics.Console.Cells
import VideoOlympics.Console.Gate
import VideoOlympics.Console.Checksum
import VideoOlympics.Console.Transport
import VideoOlympics.Console.Session
import VideoOlympics.Console.Record
import VideoOlympics.Console.Boundary
import VideoOlympics.Console.Solo
import VideoOlympics.Console.Handover
import VideoOlympics.Console.Immutable
import VideoOlympics.Console.Stalls
import VideoOlympics.Console.Watchdog
import VideoOlympics.Console.Feed
import VideoOlympics.Console.Reader
import VideoOlympics.Lockstep.Link
import VideoOlympics.Lockstep.Transit
import VideoOlympics.Lockstep.Skew
import VideoOlympics.Lockstep.Steps
import VideoOlympics.Lockstep.Bound
import VideoOlympics.Lockstep.Progress
import VideoOlympics.Lockstep.Gaps
import VideoOlympics.Lockstep.Agree
import VideoOlympics.Lockstep.Batches
import VideoOlympics.Lockstep.Desync
import VideoOlympics.Lockstep.Repair
import VideoOlympics.Relay.Server
import VideoOlympics.Relay.Hello
import VideoOlympics.Relay.Greeting
import VideoOlympics.Relay.Room
import VideoOlympics.Relay.Service
import VideoOlympics.Relay.Matching
import VideoOlympics.Relay.Survive
import VideoOlympics.Relay.Books
import VideoOlympics.Relay.Hall
import VideoOlympics.Relay.Inert
import VideoOlympics.Relay.Resting
import VideoOlympics.Relay.Sessions
import VideoOlympics.Relay.RoundTrip
import VideoOlympics.Relay.Play
import VideoOlympics.Relay.Checksums
import VideoOlympics.Relay.Laps
import VideoOlympics.Relay.Verified
import VideoOlympics.Relay.Rematch
import VideoOlympics.Relay.Manners
import VideoOlympics.Relay.Framing
import VideoOlympics.Relay.Channel
import VideoOlympics.Relay.Invited
import VideoOlympics.Relay.Budget
import VideoOlympics.Relay.Account
import VideoOlympics.Relay.Waiting
import VideoOlympics.Relay.Registry
import VideoOlympics.Relay.Players
import VideoOlympics.Relay.Renames
import VideoOlympics.Port.Relay
import VideoOlympics.Port.Slots
import VideoOlympics.Port.Checksums
import VideoOlympics.Port.Rack
import VideoOlympics.Port.Loop
import VideoOlympics.Port.Links
import VideoOlympics.Port.Names
import VideoOlympics.Port.Mirror
import VideoOlympics.Port.Meeting
import VideoOlympics.Port.Frames
import VideoOlympics.Port.Events
import VideoOlympics.Port.Refines
import VideoOlympics.Port.Traffic
import VideoOlympics.Port.Receive
import VideoOlympics.Port.Turns
import VideoOlympics.Port.Offer
import VideoOlympics.Port.Repr
import VideoOlympics.Lobby.Publisher
import VideoOlympics.Lobby.Wakeup
import VideoOlympics.Port.Lobby
import VideoOlympics.Port.Render
import VideoOlympics.Port.Closing
import VideoOlympics.Port.Post
import VideoOlympics.System.World
import VideoOlympics.System.Desks
import VideoOlympics.System.Wires
import VideoOlympics.System.Match
import VideoOlympics.System.Refines
import VideoOlympics.System.Listing
import VideoOlympics.Build.Patches
import VideoOlympics.Build.Declared
import VideoOlympics.Build.Banks
import VideoOlympics.Build.Audit
