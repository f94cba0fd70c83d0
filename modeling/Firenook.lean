import Firenook.Auth.Import
import Firenook.Auth.Persist
import Firenook.Auth.Scope
import Firenook.Disk.Accounting
import Firenook.Disk.Indexes
import Firenook.Disk.Preview
import Firenook.Disk.Tokens
import Firenook.Functions.Delivery
import Firenook.Grpc.Bloom
import Firenook.Grpc.Children
import Firenook.Pubsub.Ordering
import Firenook.Query.Aggregates
import Firenook.Query.FieldPaths
import Firenook.Query.Named
import Firenook.Query.Projection
import Firenook.Rules.Decisions
import Firenook.Rules.Times
import Firenook.Storage.MetadataRecovery
import Firenook.Storage.ViewCache
import Firenook.Store.Arrays
import Firenook.Store.Retention
import Firenook.Tasks.Holding
import Firenook.Webchannel.Waiting
