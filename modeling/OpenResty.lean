import OpenResty.Waf.ChainRun
import OpenResty.Waf.StorageAgree
import OpenResty.Waf.BodyFilter
import OpenResty.Waf.Isolation
import OpenResty.NgxLua.LogRingbufFacts
import OpenResty.NgxLua.EncodeArgsCounts
import OpenResty.Resty.LimitReqUncommit
import OpenResty.Resty.LimitTraffic
import OpenResty.Resty.LockWaits
import OpenResty.Resty.HealthcheckCycle
import OpenResty.NgxLua.SemaphoreFacts
import OpenResty.NgxLua.SemaphoreSlots
import OpenResty.NgxLua.ShdictAgree
import OpenResty.NgxLua.ShdictValues
import OpenResty.Kong.RouterRuns
import OpenResty.Kong.GalileoBuffer
import OpenResty.Kong.UniqueColumns
import OpenResty.Kong.DaoCascade
import OpenResty.Kong.PluginsIterator
import OpenResty.Kong.JwtConsumers
import OpenResty.Resty.UploadFacts
import OpenResty.Resty.RedisRoundTrip
import OpenResty.NgxLua.KeepalivePoolFacts
import OpenResty.Resty.RedisClientFacts
import OpenResty.NgxLua.RegexCacheFacts
import OpenResty.Filter.IconvFacts
import OpenResty.Filter.RdsBuffersFacts
import OpenResty.Waf.StrMatch
import OpenResty.Waf.TranslateTokensFacts
import OpenResty.Waf.TranslateActions
import OpenResty.Resty.WebsocketFrames
import OpenResty.Waf.ParsePattern
import OpenResty.Waf.ExpiryFacts
import OpenResty.Waf.VerifyCc
import OpenResty.Waf.PmDictionary
import OpenResty.Waf.CssDecodeFacts
import OpenResty.NgxLua.ReceiveSizesFacts
import OpenResty.NgxLua.ShdictExpiry
import OpenResty.NgxLua.ShdictNoMemory
import OpenResty.Waf.NormalisePathFacts
import OpenResty.Resty.DnsRequest
import OpenResty.Resty.RdsAgreement
import OpenResty.Kong.Utf8
import OpenResty.Kong.Asn1Facts
import OpenResty.Kong.JwtParser
import OpenResty.Kong.Balancer
import OpenResty.Resty.DnsArpa
import OpenResty.Kong.ResponseRateLimitingRuns
import OpenResty.Kong.NormalizeIpFacts
import OpenResty.Kong.Oauth2ScopesFacts
import OpenResty.Resty.ReSplitFacts
import OpenResty.Resty.RedisGrammar
import OpenResty.NgxLua.ScriptTemplates
import OpenResty.Ndk.QuoteJson
import OpenResty.Ndk.QuoteSql
import OpenResty.Resty.LockRefs
import OpenResty.Resty.LrucacheChains
import OpenResty.Resty.MysqlPackets
import OpenResty.Ndk.Base32
import OpenResty.Ndk.ArraySplit
import OpenResty.Ndk.EncryptedSession
import OpenResty.Ndk.FormInput
import OpenResty.Nginx.RoundRobin
