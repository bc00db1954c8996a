import CloudCryptFS.Script.Json
import CloudCryptFS.Script.Flat
import CloudCryptFS.Script.Counting
import CloudCryptFS.Filesystem.Content
import CloudCryptFS.Filesystem.Directory
import CloudCryptFS.Filesystem.Accounting
import CloudCryptFS.Filesystem.Inode
import CloudCryptFS.Util.NameGraph
import CloudCryptFS.Filesystem.Namespace
import CloudCryptFS.Filesystem.Stored
import CloudCryptFS.Filesystem.Entries
import CloudCryptFS.Filesystem.Names
import CloudCryptFS.Filesystem.Changes
import CloudCryptFS.Filesystem.Calls
import CloudCryptFS.Filesystem.Removal
import CloudCryptFS.Filesystem.Contents
import CloudCryptFS.Filesystem.Mount
import CloudCryptFS.Filesystem.Runs
import CloudCryptFS.Filesystem.Bucket
import CloudCryptFS.Filesystem.BucketFiles
import CloudCryptFS.Filesystem.BucketThreads
import CloudCryptFS.Journal.Entry
import CloudCryptFS.Journal.Torn
import CloudCryptFS.Journal.Replay
import CloudCryptFS.Journal.Session
import CloudCryptFS.Journal.Writers
import CloudCryptFS.Filesystem.Pool
import CloudCryptFS.Filesystem.PoolSteps
import CloudCryptFS.Filesystem.PoolRuns
import CloudCryptFS.Filesystem.HashThreads
import CloudCryptFS.Filesystem.HashSteps
import CloudCryptFS.Filesystem.HashRuns
import CloudCryptFS.Filesystem.Storage
import CloudCryptFS.Filesystem.StorageSteps
import CloudCryptFS.Filesystem.StorageRep
import CloudCryptFS.Filesystem.DataCalls
import CloudCryptFS.Filesystem.ContentBytes
import CloudCryptFS.Filesystem.StorageCounts
import CloudCryptFS.Filesystem.StorageContent
import CloudCryptFS.Filesystem.Throwing
import CloudCryptFS.Filesystem.FailedWrites
import CloudCryptFS.Filesystem.Records
import CloudCryptFS.Util.Pages
import CloudCryptFS.Filesystem.Ctds
import CloudCryptFS.Filesystem.CtdChains
import CloudCryptFS.Filesystem.ChainSteps
import CloudCryptFS.Filesystem.References
import CloudCryptFS.Filesystem.StorageRoom
import CloudCryptFS.Filesystem.StorageCalls
import CloudCryptFS.Filesystem.ContentRuns
import CloudCryptFS.Filesystem.Volume
import CloudCryptFS.Filesystem.VolumeSound
import CloudCryptFS.Filesystem.VolumeRuns
import CloudCryptFS.Filesystem.Frames
import CloudCryptFS.Filesystem.Unlinks
import CloudCryptFS.Script.Quoted
import CloudCryptFS.Script.Malformed
import CloudCryptFS.Script.Documents
import CloudCryptFS.Script.Nested
import CloudCryptFS.Util.SharedMutex
import CloudCryptFS.Filesystem.Lookups
import CloudCryptFS.Filesystem.Handles
import CloudCryptFS.Filesystem.Access
import CloudCryptFS.Filesystem.Attributes
import CloudCryptFS.Journal.Files
import CloudCryptFS.Filesystem.Replays
import CloudCryptFS.Filesystem.Recovery
import CloudCryptFS.Util.Overlay
import CloudCryptFS.Filesystem.Writes
import CloudCryptFS.Filesystem.SerialWrites
import CloudCryptFS.Filesystem.WriteRuns
import CloudCryptFS.Crypto.Key
import CloudCryptFS.Crypto.Protocol
import CloudCryptFS.Crypto.FileNames
import CloudCryptFS.Filesystem.Migration
import CloudCryptFS.Filesystem.Background
import CloudCryptFS.Filesystem.Listing
import CloudCryptFS.Util.Base64
import CloudCryptFS.Filesystem.RootProperties
import CloudCryptFS.Util.PathMap
import CloudCryptFS.Util.Trace
import CloudCryptFS.Filesystem.Hierarchy
import CloudCryptFS.Filesystem.Untouched
import CloudCryptFS.Filesystem.FileCalls
import CloudCryptFS.Filesystem.FileTree
import CloudCryptFS.Filesystem.MountLock
