import Crabc.Text.VersionOrder
import Crabc.Iconv.RoundTrip
import Crabc.Iconv.Resume
import Crabc.Pattern.Meaning
import Crabc.Pattern.Elements
import Crabc.Time.PosixTzLookup
import Crabc.Time.TzifLookup
import Crabc.Libc.QsortSorts
import Crabc.Dns.Query
import Crabc.Dns.Answers
import Crabc.Dns.Stream
import Crabc.Libc.InetParse
import Crabc.Libc.BracketWalk
import Crabc.Libc.LocalTime
import Crabc.Libc.ZoneFile
import Crabc.Libc.StringConversions
import Crabc.Libc.NameserLaws
import Crabc.Ldso.DependencyPlan
import Crabc.Ldso.TlsGenerations
import Crabc.Ldso.LoaderPoolLaws
import Crabc.Mimalloc.FreeListLaws
import Crabc.Mimalloc.ChunkClaims
import Crabc.Mimalloc.BinnedClaims
import Crabc.Mimalloc.BinnedSequences
import Crabc.Mimalloc.RemoteFreeLaws
import Crabc.Mimalloc.AbandonedOwner
import Crabc.Ldso.RuntimeLock
import Crabc.Mimalloc.ClearOnceSet
import Crabc.Ldso.TlsReset
import Crabc.Ldso.SymbolName
import Crabc.Ldso.LoadRange
import Crabc.Libc.PthreadOnce
import Crabc.Libc.WriteNumber
