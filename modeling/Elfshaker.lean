import Elfshaker.Checkout.Checkouts
import Elfshaker.Checkout.CleanupQueue
import Elfshaker.Checkout.ContentAddressed
import Elfshaker.Checkout.Head
import Elfshaker.Checkout.PathPolicy
import Elfshaker.Cli.FormatRow
import Elfshaker.Esi.AllOrNothing
import Elfshaker.Format.DeltaReaders
import Elfshaker.Format.EscapedPath
import Elfshaker.Format.ExactIdentity
import Elfshaker.Format.HandleMeaning
import Elfshaker.Format.NativePath
import Elfshaker.Format.PoolHistory
import Elfshaker.Format.PushSnapshot
import Elfshaker.Format.Resume
import Elfshaker.Packs.ExtractArithmetic
import Elfshaker.Packs.Layout
import Elfshaker.Packs.PackCommand
import Elfshaker.Packs.VerifiedExtract
import Elfshaker.Remote.EntryNames
import Elfshaker.Remote.Progress
import Elfshaker.Remote.UsableIds
import Elfshaker.Remote.VersionStability
import Elfshaker.Serve.MatchCommit
import Elfshaker.Store.AliasedTags
import Elfshaker.Store.AtomicCreate
import Elfshaker.Store.AtomicRetry
import Elfshaker.Store.CleanFileList
import Elfshaker.Store.GcObjects
import Elfshaker.Store.IndexPaths
import Elfshaker.Store.LooseTree
import Elfshaker.Store.ObjectNames
import Elfshaker.System.ReadBack
import Elfshaker.Library.Locking
import Elfshaker.Store.RepositoryLock
import Elfshaker.System.Jobs
