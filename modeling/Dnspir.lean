import Dnspir.Lib.Negacyclic
import Dnspir.Lib.PowersOfFive
import Dnspir.Lib.Loops
import Dnspir.PerformPir
import Dnspir.PreprocessFacts
import Dnspir.Retrieval
import Dnspir.DigitRange
import Dnspir.Representation
import Dnspir.KernelRange
import Dnspir.BufferFacts
import Dnspir.BfvKeys
import Dnspir.PirWrapperFacts
import Dnspir.BatchFacts
import Dnspir.Dns.SlotFacts
import Dnspir.Dns.QueryFacts
import Dnspir.Dns.ZoneFacts
import Dnspir.Dns.IpText
import Dnspir.Dns.ResolveFacts
import Dnspir.Dns.WalkFacts
import Dnspir.Dns.RejectFacts
import Dnspir.Dns.ProtocolFacts
import Dnspir.Dns.LookupFacts
import Dnspir.Dns.ServeFacts
import Dnspir.Dns.StartupFacts
import Dnspir.BfvNoise
import Dnspir.QueryNoise
import Dnspir.ProcessFacts
import Dnspir.Dns.CanonicalFacts
import Dnspir.Dns.RetrieveFacts
import Dnspir.Dns.SessionFacts
import Dnspir.EmulatedKernel
import Dnspir.PermuteInv
