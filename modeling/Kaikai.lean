import Kaikai.AvlLimit
import Kaikai.Base64
import Kaikai.BigDecimal
import Kaikai.BigIntCanonical
import Kaikai.BinCodec
import Kaikai.CacheDir
import Kaikai.CanonExact
import Kaikai.DeepCopyCross
import Kaikai.Duration
import Kaikai.Exhaust
import Kaikai.HashExact
import Kaikai.HashTableRun
import Kaikai.HeapRuns
import Kaikai.HttpFollow
import Kaikai.HttpRead
import Kaikai.ImportCycles
import Kaikai.IntPrime
import Kaikai.InterpToken
import Kaikai.IntervalsSound
import Kaikai.JsonEncode
import Kaikai.KaiPkgResolve
import Kaikai.LayoutDerive
import Kaikai.LexNumeral
import Kaikai.MailboxOrder
import Kaikai.OrderedSet
import Kaikai.PipeExact
import Kaikai.PuritySound
import Kaikai.RadixText
import Kaikai.RangeLoops
import Kaikai.RawMoveSound
import Kaikai.ReactorExact
import Kaikai.RefineCanon
import Kaikai.RefineSound
import Kaikai.RegexContains
import Kaikai.RegexpScan
import Kaikai.RuntimeEqExact
import Kaikai.SccExact
import Kaikai.SchedPark
import Kaikai.StreamLines
import Kaikai.UnionCanonical
import Kaikai.UniqueBindersSound
import Kaikai.UnitMgu
import Kaikai.UnitText
import Kaikai.UnwindExits
import Kaikai.UrlQuery
import Kaikai.UrlReparse
import Kaikai.Utf8Codec
