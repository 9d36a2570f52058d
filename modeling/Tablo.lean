import Tablo.ObjSet
import Tablo.Slices
import Tablo.BigintBitwise
import Tablo.BigintTextCorrect
import Tablo.GlobalsRun
import Tablo.LruRun
import Tablo.PathSandboxCorrect
import Tablo.TypesSound
import Tablo.Bloom
import Tablo.CryptoHashCorrect
import Tablo.CryptoAesGcm
import Tablo.Queue
import Tablo.SessionCorrect
import Tablo.StringPieces
import Tablo.HttpCorrect
import Tablo.JsonParse
import Tablo.FoldingCorrect
import Tablo.GenericResolution
import Tablo.RegexpQuote
import Tablo.ArtifactCorrect
import Tablo.MsgpackRoundTrip
import Tablo.CycleGcCollect
import Tablo.AsyncRun
import Tablo.SuperinstructionCorrect
import Tablo.MatchCorrect
import Tablo.InlineCorrect
import Tablo.Datetime
import Tablo.DependencyChecksum
import Tablo.RateLimit
import Tablo.RetryDelay
