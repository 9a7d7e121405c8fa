import ShardedLedger.Foundation.Sockets
import ShardedLedger.Foundation.RoundRobin
import ShardedLedger.Server.Binding
import ShardedLedger.Channel.Framing
import ShardedLedger.Channel.Adversary
import ShardedLedger.KeyExchange.Agreement
import ShardedLedger.KeyExchange.Authentication
import ShardedLedger.KeyExchange.ServerSide
import ShardedLedger.Router.Retrieval
import ShardedLedger.Foundation.Generator
import ShardedLedger.KeyExchange.Serialisation
import ShardedLedger.Channel.Parser
import ShardedLedger.KeyExchange.Verdict
import ShardedLedger.KeyExchange.HelloBuffers
import ShardedLedger.KeyExchange.Transcript
import ShardedLedger.KeyExchange.Substitution
import ShardedLedger.Foundation.Runs
import ShardedLedger.Router.Dealing
import ShardedLedger.Router.Service
import ShardedLedger.Router.Sizes
import ShardedLedger.Router.Draws
import ShardedLedger.Router.Nonces
import ShardedLedger.Client.Closing
import ShardedLedger.Foundation.Arrays
import ShardedLedger.Foundation.Primes
import ShardedLedger.KeyExchange.Prime
import ShardedLedger.Router.Appending
import ShardedLedger.Server.Acknowledge
import ShardedLedger.Server.Encoding
import ShardedLedger.Server.Allocation
import ShardedLedger.Server.Tampering
import ShardedLedger.Server.Sessions
import ShardedLedger.Client.Input
import ShardedLedger.Deployment.Sends
import ShardedLedger.Random.Seeding
import ShardedLedger.Random.Prediction
