import RestClient.Lib.BoundedQueue
import RestClient.Lib.Machine
import RestClient.Lib.RingWindow
import RestClient.Lib.Separated
import RestClient.Alignment
import RestClient.Backlog
import RestClient.BufferRefinement
import RestClient.Delivery
import RestClient.LoopExit
import RestClient.Message
import RestClient.RequestBuffer
import RestClient.RingSize
import RestClient.Session
import RestClient.SessionAccounts
import RestClient.SessionMoves
import RestClient.SessionRefinement
import RestClient.SetUp
import RestClient.SharedBuffer
import RestClient.SharedPayload
import RestClient.SharedPositions
import RestClient.Writes
import RestClient.Targets
import RestClient.Dispatch
import RestClient.CounterWrap
import RestClient.SharedProgress
import RestClient.HttpGrammar
import RestClient.ReadLoop
import RestClient.RequestsOnWire
import RestClient.ReadStream
import RestClient.Lib.Cyclic
import RestClient.Lib.Pacing
import RestClient.Program
import RestClient.ProgramMoves
import RestClient.RoundRobin
import RestClient.PromptStop
import RestClient.RateLimit
import RestClient.RateOverrun
import RestClient.Lib.Scanning
import RestClient.Lib.Occurrence
import RestClient.ResponseParser
import RestClient.ResponseGrammar
import RestClient.HeaderEnd
import RestClient.PutHeader
import RestClient.PutBody
import RestClient.PutChunks
import RestClient.PutLoop
import RestClient.ReadResponse
import RestClient.ParsedReads
import RestClient.Framing
import RestClient.Shutdown
import RestClient.Lib.DynamicBuffer
import RestClient.FlatBuffer
import RestClient.PutRest
import RestClient.BufferedReads
import RestClient.BufferBound
import RestClient.BufferedResponses
import RestClient.Serializer
import RestClient.WrittenMessage
import RestClient.BodyCoding
import RestClient.BasicFields
