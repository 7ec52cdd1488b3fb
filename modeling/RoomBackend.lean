import RoomBackend.Answering
import RoomBackend.Lts
import RoomBackend.Expiring
import RoomBackend.Async
import RoomBackend.Numerals
import RoomBackend.Day
import RoomBackend.Calendar
import RoomBackend.Rounding
import RoomBackend.RateLimit
import RoomBackend.Suspicion
import RoomBackend.Protocol
import RoomBackend.Store
import RoomBackend.Redis
import RoomBackend.Gateway
import RoomBackend.Operations
import RoomBackend.Sessions
import RoomBackend.Connection
import RoomBackend.Handlers
import RoomBackend.RoomServer
import RoomBackend.System
import RoomBackend.Moves
import RoomBackend.Steps
import RoomBackend.Effects
import RoomBackend.Roster
import RoomBackend.Seats
import RoomBackend.Census
import RoomBackend.Admission
import RoomBackend.Replies
import RoomBackend.Filing
import RoomBackend.Renewal
import RoomBackend.Succession
import RoomBackend.Quiet
import RoomBackend.Frames
import RoomBackend.Sockets
import RoomBackend.Boundary
import RoomBackend.Provenance
import RoomBackend.Announcements
import RoomBackend.Copies
import RoomBackend.Enforcement
import RoomBackend.Challenges
import RoomBackend.Drift
import RoomBackend.Lifetimes
import RoomBackend.Pseudonyms
import RoomBackend.Renaming
import RoomBackend.Renamed
import RoomBackend.Secrecy
import RoomBackend.Service
import RoomBackend.Naming
import RoomBackend.Resumption
import RoomBackend.Fanout
import RoomBackend.Deliveries
import RoomBackend.Joining
import RoomBackend.Histories
import RoomBackend.Midnight
import RoomBackend.Lookups
import RoomBackend.Blocks
import RoomBackend.Buckets
import RoomBackend.Spending
import RoomBackend.Allowance
import RoomBackend.Arrivals
import RoomBackend.Backlog
import RoomBackend.Blocklist
import RoomBackend.Counters
import RoomBackend.Retention
import RoomBackend.Tiers
import RoomBackend.Hints
import RoomBackend.Readings
import RoomBackend.Decay
import RoomBackend.Gathering
import RoomBackend.Duplicates
import RoomBackend.Replays
import RoomBackend.Restored
import RoomBackend.Attempts
import RoomBackend.Texts
import RoomBackend.Addresses
import RoomBackend.Hops
import RoomBackend.Networks
import RoomBackend.Utf16
import RoomBackend.Words
import RoomBackend.Lines
import RoomBackend.Normalizing
import RoomBackend.Canonical
import RoomBackend.Shown
import RoomBackend.Cadence
import RoomBackend.Sizes
import RoomBackend.Presence
import RoomBackend.Patterns
import RoomBackend.Origins
import RoomBackend.Vitals
import RoomBackend.Grace
import RoomBackend.Heartbeats
import RoomBackend.Http
import RoomBackend.Progress
import RoomBackend.Authorship
import RoomBackend.Custody
import RoomBackend.Disclosure
import RoomBackend.Takeover
import RoomBackend.Tickets
import RoomBackend.Quotas
import RoomBackend.Keys
import RoomBackend.Memory
import RoomBackend.Deserts
import RoomBackend.Asks
import RoomBackend.Hosted
import RoomBackend.Leases
import RoomBackend.Cleanup
import RoomBackend.Ordering
