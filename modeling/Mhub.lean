import Mhub.Base.Outline
import Mhub.Broker.Aborts
import Mhub.Broker.Access
import Mhub.Broker.Acks
import Mhub.Broker.Answers
import Mhub.Broker.Audience
import Mhub.Broker.Cleanup
import Mhub.Broker.ConnAck
import Mhub.Broker.Connect
import Mhub.Broker.Content
import Mhub.Broker.Crashes
import Mhub.Broker.Delivery
import Mhub.Broker.Entries
import Mhub.Broker.History
import Mhub.Broker.KeepAlive
import Mhub.Broker.LastRetained
import Mhub.Broker.Lists
import Mhub.Broker.NewSubscriber
import Mhub.Broker.Order
import Mhub.Broker.Own
import Mhub.Broker.Pool
import Mhub.Broker.Presence
import Mhub.Broker.Progress
import Mhub.Broker.Queue
import Mhub.Broker.Receipts
import Mhub.Broker.Redelivery
import Mhub.Broker.Registry
import Mhub.Broker.Session
import Mhub.Broker.Single
import Mhub.Broker.Stop
import Mhub.Broker.SubLimit
import Mhub.Broker.TakeOver
import Mhub.Broker.Waiting
import Mhub.Broker.Wire
import Mhub.Broker.Workers
import Mhub.Client
import Mhub.Cluster
import Mhub.Discovery
import Mhub.Endpoint
import Mhub.Forward
import Mhub.Index
import Mhub.Publishers
import Mhub.Registration
import Mhub.Replication
import Mhub.StoreMaps
import Mhub.Broker.Replies
import Mhub.Calls
import Mhub.Linked
