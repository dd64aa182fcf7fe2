import Blacklink.Base.Run
import Blacklink.Base.Loop
import Blacklink.Base.LinkedTree
import Blacklink.Base.LinkedList
import Blacklink.Base.Incremental
import Blacklink.Base.Appends
import Blacklink.Base.Intervals
import Blacklink.Base.Pieces
import Blacklink.Base.HashTree
import Blacklink.Queue.QueueItem
import Blacklink.Queue.DoneSegments
import Blacklink.Queue.NextSegment
import Blacklink.Queue.SegmentSearch
import Blacklink.Queue.GetDownload
import Blacklink.Queue.ExclusiveSegments
import Blacklink.Queue.UserQueue
import Blacklink.Queue.SourceLists
import Blacklink.Queue.UserQueueRuns
import Blacklink.Hash.MerkleTree
import Blacklink.Hash.TreeHash
import Blacklink.Stream.MerkleCheckOutputStream
import Blacklink.Stream.MerkleCheck
import Blacklink.Stream.OutputStream
import Blacklink.Stream.Storage
import Blacklink.Stream.Inflate
import Blacklink.Transfer.Data
import Blacklink.Transfer.Stack
import Blacklink.Transfer.Partial
import Blacklink.Transfer.Complete
import Blacklink.Transfer.Connection
import Blacklink.Transfer.GivenBack
import Blacklink.Upload.UploadManager
import Blacklink.Upload.Slots
import Blacklink.Queue.AlignedSegments
import Blacklink.Hash.Load
import Blacklink.Transfer.Verified
import Blacklink.Transfer.ItemFile
import Blacklink.Transfer.FileContent
import Blacklink.Transfer.VerifiedFile
import Blacklink.Transfer.TreeDownload
import Blacklink.Transfer.ChunkSize
import Blacklink.Adc.AdcCommand
import Blacklink.Adc.RoundTrip
import Blacklink.Queue.FileQueue
import Blacklink.Queue.FileIndexes
import Blacklink.Net.BufferedSocket
import Blacklink.Net.Framing
import Blacklink.Net.Received
import Blacklink.Net.IpList
import Blacklink.Net.ThrottleState
import Blacklink.Text.Utf8
import Blacklink.Text.ToLower
import Blacklink.Text.Wide
import Blacklink.Text.UriUtil
import Blacklink.Text.UrlRoundTrip
import Blacklink.Text.UriEscapes
import Blacklink.Share.BloomFilter
import Blacklink.Share.SharedDir
import Blacklink.Share.ShareManager
import Blacklink.Share.Operations
import Blacklink.Share.Scan
import Blacklink.Share.Search
import Blacklink.Share.SearchMisses
import Blacklink.Share.AdcResults
import Blacklink.Share.Trees
import Blacklink.Share.BloomCovers
import Blacklink.Share.Heads
import Blacklink.Share.Publication
import Blacklink.Share.Distinct
import Blacklink.Share.ListChanges
import Blacklink.Share.Contents
import Blacklink.Base.LruCache
import Blacklink.Cache.LruCache
import Blacklink.Share.HashBloom
import Blacklink.Share.HashBloomCache
import Blacklink.Text.Numbers
import Blacklink.Text.Base32
import Blacklink.Share.SearchParams
import Blacklink.Share.Groups
import Blacklink.Share.SearchCache
import Blacklink.Share.FileIds
import Blacklink.Share.FileList
import Blacklink.Share.QuietSteps
import Blacklink.Share.ListFreshness
import Blacklink.Share.ShareList
import Blacklink.Share.ShareListRuns
import Blacklink.Xml.SimpleXMLReader
import Blacklink.Xml.Characters
import Blacklink.Xml.Processing
import Blacklink.Xml.Buffers
import Blacklink.Xml.SimpleXML
import Blacklink.Xml.Written
import Blacklink.Xml.RoundTrip
import Blacklink.Xml.Truncated
import Blacklink.Json.JsonParser
import Blacklink.Json.Chunks
import Blacklink.Json.Unescape
import Blacklink.Base.Program
import Blacklink.HashDb.Record
import Blacklink.HashDb.Connection
import Blacklink.HashDb.Database
import Blacklink.HashDb.TxnCount
import Blacklink.HashDb.Resize
import Blacklink.HashDb.Updates
import Blacklink.HashDb.Entries
import Blacklink.HashDb.Lookup
import Blacklink.Connections.ExpectedNmdc
import Blacklink.Connections.Ccpm
import Blacklink.Connections.DownloadQueue
import Blacklink.Hash.Fed
import Blacklink.HashManager.Hashing
import Blacklink.HashManager.FileReads
import Blacklink.HashManager.Reported
import Blacklink.HashManager.HasherThread
import Blacklink.Searches.SearchQueue
import Blacklink.Searches.SearchOwners
import Blacklink.Base.SlidingWindow
import Blacklink.AntiFlood.RequestCounter
import Blacklink.AntiFlood.IpBans
import Blacklink.AntiFlood.Floods
import Blacklink.Dht.Packets
import Blacklink.Dht.Answers
import Blacklink.Base.AssocMap
import Blacklink.Dht.Index
import Blacklink.Dht.Publishing
import Blacklink.Dht.KBucket
import Blacklink.Dht.KBucketRuns
import Blacklink.Dht.ClosestNodes
import Blacklink.Text.Ip4Address
import Blacklink.Dht.IndexXml
import Blacklink.Dht.SearchResponse
import Blacklink.Base.StreamCipher
import Blacklink.Base.Cbc
import Blacklink.Searches.Encryption
import Blacklink.Dht.Datagrams
import Blacklink.Text.Split
import Blacklink.Nmdc.SearchParse
import Blacklink.Nmdc.SearchGroups
import Blacklink.Nmdc.Escape
import Blacklink.Nmdc.Key
import Blacklink.Nmdc.SearchToken
import Blacklink.Searches.SearchResults
import Blacklink.Searches.ResultRoundTrip
import Blacklink.Base.RoseTree
import Blacklink.Listing.Directory
import Blacklink.Listing.ListLoader
import Blacklink.Listing.SpliceTree
import Blacklink.Listing.Names
import Blacklink.Listing.Found
import Blacklink.Listing.FoundRuns
import Blacklink.Listing.FoundOrder
import Blacklink.Listing.SpliceFrame
import Blacklink.Listing.Objects
import Blacklink.Listing.SplicePointers
import Blacklink.Listing.Counts
import Blacklink.Listing.CountRuns
import Blacklink.Base.TableSum
import Blacklink.Hub.OnlineUsers
import Blacklink.Hub.AdcUsers
import Blacklink.Hub.NmdcUsers
import Blacklink.Hub.TableRuns
import Blacklink.Stream.Inflater
import Blacklink.Net.Decompress
import Blacklink.Net.DecompressRuns
import Blacklink.Http.Message
import Blacklink.Base.Calendar
import Blacklink.Http.Date
import Blacklink.Http.Headers
import Blacklink.Http.Messages
import Blacklink.Http.BodyFraming
import Blacklink.Http.HttpConnection
import Blacklink.Http.SizeNumbers
import Blacklink.Http.ConnectionRuns
import Blacklink.Queue.Parts
import Blacklink.Queue.FreeSegments
import Blacklink.Queue.PartSegments
import Blacklink.Searches.PartialResults
import Blacklink.Queue.AlignedRuns
import Blacklink.Share.Extensions
import Blacklink.Share.CacheKeys
import Blacklink.Base.BitMasks
import Blacklink.Base.Smallest
import Blacklink.Share.MaskRuns
import Blacklink.Share.NmdcResults
import Blacklink.Share.StringSearch
import Blacklink.Share.OpenPath
import Blacklink.Share.TypeMasks
import Blacklink.Share.ScanMasks
import Blacklink.Hash.LeafData
import Blacklink.Hash.BufferedTree
import Blacklink.Share.FileListFilter
import Blacklink.Adc.NmdcRoundTrip
