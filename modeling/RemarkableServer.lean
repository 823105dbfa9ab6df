import RemarkableServer.Lib.RustText
import RemarkableServer.Lib.Utf8
import RemarkableServer.Lib.Transition
import RemarkableServer.Lib.Json
import RemarkableServer.Lib.Sha256
import RemarkableServer.SyncIndex
import RemarkableServer.IndexReaders
import RemarkableServer.IndexRoundTrip
import RemarkableServer.JsonScan
import RemarkableServer.JsonScanChunks
import RemarkableServer.Store
import RemarkableServer.Projection
import RemarkableServer.LiveSet
import RemarkableServer.GcBatches
import RemarkableServer.GcSafety
import RemarkableServer.RootGeneration
import RemarkableServer.CheckFiles
import RemarkableServer.RootCommit
import RemarkableServer.Documents
import RemarkableServer.DocumentEntries
import RemarkableServer.RootWriters
import RemarkableServer.DocumentSources
import RemarkableServer.DocumentIndexes
import RemarkableServer.Lib.FileTree
import RemarkableServer.Lib.Effect
import RemarkableServer.Integrations
import RemarkableServer.CloudPaths
import RemarkableServer.CloudSync
import RemarkableServer.SyncLocal
import RemarkableServer.SyncTransfers
import RemarkableServer.CaseMatch
import RemarkableServer.Reconcile
import RemarkableServer.SyncInvariants
import RemarkableServer.SyncPhases
import RemarkableServer.SyncKeepsContent
import RemarkableServer.DeltaSync
import RemarkableServer.SyncViews
import RemarkableServer.SyncPaths
import RemarkableServer.DirectionSafety
import RemarkableServer.DeletionSafety
import RemarkableServer.DeltaSafety
import RemarkableServer.Lib.Worklist
import RemarkableServer.Lib.Paging
import RemarkableServer.GoogleDrive
import RemarkableServer.DriveFeed
import RemarkableServer.OneDrive
import RemarkableServer.OneDriveTree
import RemarkableServer.OneDriveListing
import RemarkableServer.OneDriveAgreement
import RemarkableServer.ReadLater
import RemarkableServer.ReadLaterTables
import RemarkableServer.ReadLaterDelivery
import RemarkableServer.ReadLaterRun
import RemarkableServer.ReadLaterStatus
import RemarkableServer.ReadLaterWindow
import RemarkableServer.Lib.FixedWindow
import RemarkableServer.OAuth
import RemarkableServer.OAuthCodes
import RemarkableServer.OAuthLimits
import RemarkableServer.Versions
import RemarkableServer.VersionNumbers
import RemarkableServer.Devices
import RemarkableServer.DeviceTokens
import RemarkableServer.DeviceSessions
import RemarkableServer.Mqtt
import RemarkableServer.MqttConnect
import RemarkableServer.MqttSession
import RemarkableServer.CalDav
import RemarkableServer.CalDavComplete
import RemarkableServer.Lib.SortDedup
import RemarkableServer.Lib.Civil
import RemarkableServer.Lib.Chrono
import RemarkableServer.Recurrence
import RemarkableServer.RecurrenceWalk
import RemarkableServer.TimeZone
import RemarkableServer.ZoneLookup
import RemarkableServer.Ics
import RemarkableServer.IcsPlain
import RemarkableServer.IcsWalk
import RemarkableServer.IcsExpand
import RemarkableServer.IcsDocuments
import RemarkableServer.Lib.Broadcast
import RemarkableServer.Notifications
import RemarkableServer.NotificationSocket
import RemarkableServer.ScreenFrames
import RemarkableServer.ScreenStream
import RemarkableServer.ScreenSupervisor
import RemarkableServer.InternalAddresses
import RemarkableServer.FeedFetch
import RemarkableServer.FeedSync
import RemarkableServer.CalDavRequests
import RemarkableServer.CalDavReach
import RemarkableServer.ScreenshareRest
import RemarkableServer.ScreenshareSignalling
import RemarkableServer.ScreenshareMembers
import RemarkableServer.ScreenshareBroker
import RemarkableServer.ScreenshareBrokerRooms
import RemarkableServer.Lib.Purge
import RemarkableServer.ScreenshareBrokerIsolation
import RemarkableServer.Lib.Multipart
import RemarkableServer.GlobPatterns
import RemarkableServer.DriveUpload
import RemarkableServer.Lib.Base64
import RemarkableServer.UploadDecoder
import RemarkableServer.Lib.OrderedMap
import RemarkableServer.DropboxReplay
import RemarkableServer.ReadLaterCache
import RemarkableServer.MissingBlobs
import RemarkableServer.QuarantinePruning
import RemarkableServer.DaySets
import RemarkableServer.RecurrenceSet
import RemarkableServer.RecurrenceBudget
import RemarkableServer.RemoteSpellings
import RemarkableServer.RemoteNames
import RemarkableServer.SteadyDisk
import RemarkableServer.LostUploads
import RemarkableServer.PutBackFiles
import RemarkableServer.Lib.Rfc3339
import RemarkableServer.VersionRetention
import RemarkableServer.PasscodeResets
import RemarkableServer.PasscodeApprovals
import RemarkableServer.Lib.BufRead
import RemarkableServer.Smtp
import RemarkableServer.SmtpFraming
import RemarkableServer.SmtpDotStuffing
import RemarkableServer.Email
import RemarkableServer.EmailRetries
import RemarkableServer.EmailAddresses
import RemarkableServer.IcsParser
import RemarkableServer.IcsNesting
import RemarkableServer.RecurrenceCost
import RemarkableServer.OccurrenceKeys
import RemarkableServer.IcsBudgets
import RemarkableServer.EventIds
import RemarkableServer.ZoneOnsets
import RemarkableServer.MqttFraming
import RemarkableServer.QuickXorHash
import RemarkableServer.StoredTimes
import RemarkableServer.RecurrenceSkip
import RemarkableServer.Lib.TextSearch
import RemarkableServer.Opml
import RemarkableServer.Firmware
import RemarkableServer.FirmwareCoherence
import RemarkableServer.Lib.TreeWalk
import RemarkableServer.PageWalks
import RemarkableServer.FeedRefresh
import RemarkableServer.HandwritingSearch
import RemarkableServer.Catalogue
import RemarkableServer.SearchRebuild
import RemarkableServer.Lib.Crc
import RemarkableServer.Checksum
import RemarkableServer.Uploads
import RemarkableServer.UploadRuns
import RemarkableServer.SingleFlight
import RemarkableServer.CalendarTokens
import RemarkableServer.CrashReports
import RemarkableServer.Lib.Unwinding
import RemarkableServer.Lib.StableSort
import RemarkableServer.CalendarStore
import RemarkableServer.CalendarRuns
import RemarkableServer.CalendarReads
import RemarkableServer.Srcset
import RemarkableServer.XmlTree
import RemarkableServer.OAuthSignature
