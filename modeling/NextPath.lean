import NextPath.Foundations.Bytes
import NextPath.Foundations.Maps
import NextPath.Foundations.Numerals
import NextPath.Foundations.Runs
import NextPath.Foundations.Contest
import NextPath.Foundations.Words
import NextPath.Foundations.Laminar
import NextPath.Foundations.Strings
import NextPath.Foundations.Paths
import NextPath.Foundations.Regex
import NextPath.Foundations.LuaPatterns
import NextPath.Foundations.Probing
import NextPath.Foundations.Goroutines
import NextPath.Foundations.Streams
import NextPath.Foundations.Polling
import NextPath.Net.Address
import NextPath.Net.Text
import NextPath.Net.Prefix
import NextPath.Net.HostPort
import NextPath.Pool.State
import NextPath.Pool.Operations
import NextPath.Pool.Allocation
import NextPath.Pool.Probing
import NextPath.Pool.Effects
import NextPath.Pool.Clock
import NextPath.Pool.Invariant
import NextPath.Pool.Consistency
import NextPath.Pool.Leases
import NextPath.Pool.Pruning
import NextPath.Pool.Canonical
import NextPath.Pool.Results
import NextPath.Pool.Served
import NextPath.Pool.Rollback
import NextPath.Pool.Exclusive
import NextPath.Proxy.Handler
import NextPath.Proxy.Failure
import NextPath.Proxy.Collection
import NextPath.Proxy.Leak
import NextPath.Proxy.Requests
import NextPath.Proxy.Revocation
import NextPath.Proxy.Lifetime
import NextPath.Sync.Receive
import NextPath.Netlink.Batch
import NextPath.Netlink.Attempt
import NextPath.Netlink.Worker
import NextPath.Netlink.Agreement
import NextPath.Netlink.Recovery
import NextPath.Sync.Convergence
import NextPath.Sync.Subnets
import NextPath.Sync.Usable
import NextPath.Sync.Insertions
import NextPath.Sync.Connections
import NextPath.Sync.Delivery
import NextPath.Sync.TieBreak
import NextPath.Sync.Manager
import NextPath.Sync.Moves
import NextPath.Sync.Tokens
import NextPath.Sync.Shutdown
import NextPath.Sync.Admission
import NextPath.Sync.Queues
import NextPath.Sync.Sending
import NextPath.Sync.Cluster
import NextPath.Sync.Writer
import NextPath.Sync.PeerAddress
import NextPath.Sync.Exchange
import NextPath.Engine.Config
import NextPath.Parser.Domain
import NextPath.Parser.Collapse
import NextPath.Parser.Zone
import NextPath.Parser.Inclusions
import NextPath.Parser.Lists
import NextPath.Parser.Cosmetic
import NextPath.Parser.ReadBack
import NextPath.Parser.Disk
import NextPath.Parser.Normal
import NextPath.Parser.Adblock
import NextPath.Parser.StateHash
import NextPath.Parser.Routes
import NextPath.Parser.Networks
import NextPath.Parser.NetworkText
import NextPath.Parser.Aggregation
import NextPath.Parser.Compile
import NextPath.Parser.ZoneFile
import NextPath.Engine.Download
import NextPath.Engine.Archive
import NextPath.Engine.Validators
import NextPath.Engine.Settings
import NextPath.Resolver.Settings
import NextPath.Netlink.Ruleset
import NextPath.Netlink.Firewall
import NextPath.Netlink.Deny
import NextPath.Netlink.Translation
import NextPath.Engine.Watcher
import NextPath.Resolver.Policy
