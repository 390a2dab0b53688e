import RestClient.ReadResponse
import RestClient.ReadStream

/-!
# Reading with the vendored parser

The read loop of the client over the parser itself: each chunk that arrives is parsed as far
as it goes, the end of the stream may cut a response, and an error of the parser or of the
connection fails the read. An exception of the parser leaves the loop instead: no handler runs
after it. For responses with a header within the limit this is the reading that the machine of
whole messages assumes.
-/

namespace RestClient
open Machine Parsing ResponseParser
variable {HandlerType : Type}

/- What `OnRead` makes of a response. -/
def ResponseParser.Response.passed (r : Response) : HttpResponse := ⟨r.status, r.body⟩

/- The message that a read is started with. -/
def HttpResponse.message (r : HttpResponse) : Response := ⟨r.status, 11, [], [], r.body⟩

def parseResponse (b : Str) : Option (HttpResponse × Str) :=
  match scanResponse default b with
  | .done r rest => some (r.passed, rest)
  | _ => none

theorem parse_of_scan {b rest : Str} {r : Response} (h : scanResponse default b = .done r rest) :
    parseResponse b = some (r.passed, rest) := by
  rw [parseResponse, h]

theorem scan_of_parse {b rest : Str} {a : HttpResponse} (h : parseResponse b = some (a, rest)) :
    ∃ r, scanResponse default b = .done r rest ∧ r.passed = a := by
  unfold parseResponse at h
  split at h
  · rename_i r rest' hscan
    cases h
    exact ⟨r, hscan, rfl⟩
  · cases h

/-- A message is what the grammar of the parser takes it for. -/
def responseReader : MessageReader Char where
  parse := parseResponse
  stable := by
    intro b a rest later h
    obtain ⟨r, hscan, rfl⟩ := scan_of_parse h
    exact parse_of_scan ((incremental_scanResponse default).done_append hscan later)

/- `mBuffer` between two reads, or the read that has it. -/
inductive ReadState where
  | idle (mBuffer : Str)
  | busy (reading : ResponseParser.Reading)
  deriving DecidableEq

/- `insert` has thrown, and the exception has left `mIoc.run()`. -/
def ReadState.threw : ReadState → Bool
  | .busy (.failed .lengthError) => true
  | _ => false

/-- The client, its read, and the chunks that will arrive before the stream ends. -/
structure Connection (HandlerType : Type) where
  client : Client HandlerType
  read : ReadState
  arriving : List Str

inductive ConnectionAction (HandlerType : Type) where
  | client (a : Action HandlerType)
  | arrive
  | endOfStream
  | readComplete
  | readFails (ec : ErrorCode) (response : HttpResponse)
  deriving DecidableEq

namespace Connection

def initial [Inhabited HandlerType] (mHost : Str) (chunks : List Str) :
    Connection HandlerType := ⟨Client.initial mHost, .idle [], chunks⟩

def isRead : Action HandlerType → Bool
  | .onRead .. => true
  | _ => false

/- The action is one of the client alone. Once the loop has thrown, only the calls from another
thread are left. -/
def permits (threw : Bool) : Action HandlerType → Bool
  | .onRead .. => false
  | .asyncRequest .. => true
  | _ => !threw

theorem isRead_of_permits {threw : Bool} {a : Action HandlerType} (h : permits threw a = true) :
    isRead a = false := by
  cases a <;> first | rfl | cases h

/- A read that has been started parses what the buffer holds. -/
def begin (c : Client HandlerType) (read : ReadState) : ReadState :=
  match read with
  | .idle b => if 0 < c.reads then .busy (readBuffer (ResponseParser.initial c.mHttpResult.message) b) else .idle b
  | .busy r => .busy r

/- What a failed read leaves in the buffer; one that has thrown does not complete. -/
def leftover : ResponseParser.Reading → Option Str
  | .waiting _ b => some b
  | .failed .lengthError => none
  | .failed _ => some []
  | .delivered .. => none

def step : Step (Connection HandlerType) (ConnectionAction HandlerType) (Event HandlerType)
  | s, .client a =>
    if permits s.read.threw a then
      (Client.step s.client a).map fun r =>
        ({ s with client := r.1, read := begin r.1 s.read }, r.2)
    else none
  | s, .arrive =>
    match s.read, s.arriving with
    | .busy (.waiting p b), chunk :: rest =>
      if s.client.canHandle then
        some ({ s with read := .busy (readBuffer p (b ++ chunk)), arriving := rest }, [])
      else none
    | _, _ => none
  | s, .endOfStream =>
    match s.read, s.arriving with
    | .busy (.waiting p b), [] =>
      if s.client.canHandle then some ({ s with read := .busy (readEof (.waiting p b)) }, [])
      else none
    | _, _ => none
  | s, .readComplete =>
    match s.read with
    | .busy (.delivered m rest) =>
      (Client.step s.client (.onRead 0 m.passed)).map fun r =>
        ({ s with client := r.1, read := begin r.1 (.idle rest) }, r.2)
    | _ => none
  | s, .readFails ec response =>
    match s.read with
    | .busy r =>
      if ec = 0 then none
      else (leftover r).bind fun b =>
        (Client.step s.client (.onRead ec response)).map fun r =>
          ({ s with client := r.1, read := begin r.1 (.idle b) }, r.2)
    | .idle _ => none

inductive Move (s : Connection HandlerType) :
    ConnectionAction HandlerType → Connection HandlerType → List (Event HandlerType) → Prop
  | client (a c es) (ha : permits s.read.threw a = true)
      (hs : Client.step s.client a = some (c, es)) :
      Move s (.client a) { s with client := c, read := begin c s.read } es
  | arrive (p b chunk rest) (hr : s.read = .busy (.waiting p b)) (hw : s.arriving = chunk :: rest)
      (hc : s.client.canHandle) :
      Move s .arrive { s with read := .busy (readBuffer p (b ++ chunk)), arriving := rest } []
  | endOfStream (p b) (hr : s.read = .busy (.waiting p b)) (hw : s.arriving = [])
      (hc : s.client.canHandle) :
      Move s .endOfStream { s with read := .busy (readEof (.waiting p b)) } []
  | readComplete (m rest c es) (hr : s.read = .busy (.delivered m rest))
      (hs : Client.step s.client (.onRead 0 m.passed) = some (c, es)) :
      Move s .readComplete { s with client := c, read := begin c (.idle rest) } es
  | readFails (ec response r b c es) (hr : s.read = .busy r) (he : ec ≠ 0)
      (hb : leftover r = some b) (hs : Client.step s.client (.onRead ec response) = some (c, es)) :
      Move s (.readFails ec response) { s with client := c, read := begin c (.idle b) } es

theorem move_of_step {s s' : Connection HandlerType} {a : ConnectionAction HandlerType}
    {es : List (Event HandlerType)} (h : step s a = some (s', es)) : Move s a s' es := by
  cases a with
  | client a =>
    obtain ⟨ha, h⟩ := Option.ite_none_right_eq_some.mp h
    obtain ⟨⟨c, es'⟩, hs, he⟩ := Option.map_eq_some_iff.mp h
    cases he
    exact .client a c _ ha hs
  | arrive =>
    simp only [step] at h
    split at h
    · rename_i p b chunk rest hr hw
      obtain ⟨hc, h⟩ := Option.ite_none_right_eq_some.mp h
      cases h
      exact .arrive p b chunk rest hr hw hc
    · cases h
  | endOfStream =>
    simp only [step] at h
    split at h
    · rename_i p b hr hw
      obtain ⟨hc, h⟩ := Option.ite_none_right_eq_some.mp h
      cases h
      exact .endOfStream p b hr hw hc
    · cases h
  | readComplete =>
    simp only [step] at h
    split at h
    · rename_i m rest hr
      obtain ⟨⟨c, es'⟩, hs, he⟩ := Option.map_eq_some_iff.mp h
      cases he
      exact .readComplete m rest c _ hr hs
    · cases h
  | readFails ec response =>
    simp only [step] at h
    split at h
    · rename_i r hr
      obtain ⟨he, h⟩ := Option.ite_none_left_eq_some.mp h
      obtain ⟨b, hb, h⟩ := Option.bind_eq_some_iff.mp h
      obtain ⟨⟨c, es'⟩, hs, he'⟩ := Option.map_eq_some_iff.mp h
      cases he'
      exact .readFails ec response r b c _ hr he hb hs
    · cases h

theorem of_threw {read : ReadState} (h : read.threw = true) :
    read = .busy (.failed .lengthError) := by
  unfold ReadState.threw at h
  split at h
  · rfl
  · cases h

/- The read that has thrown stays as it is, and no handler runs. -/
theorem threw_step {s s' : Connection HandlerType} {a : ConnectionAction HandlerType}
    {es : List (Event HandlerType)} (ht : s.read.threw = true) (h : step s a = some (s', es)) :
    s'.read = s.read ∧ ∃ request hdl, a = .client (.asyncRequest request hdl) := by
  have hr := of_threw ht
  cases move_of_step h with
  | client a c es ha hs =>
    rw [ht] at ha
    refine ⟨?_, ?_⟩
    · change begin c s.read = s.read
      rw [hr]
      rfl
    · cases a with
      | asyncRequest request hdl => exact ⟨request, hdl, rfl⟩
      | _ => cases ha
  | arrive p b chunk rest hr' => cases hr.symm.trans hr'
  | endOfStream p b hr' => cases hr.symm.trans hr'
  | readComplete m rest c es hr' => cases hr.symm.trans hr'
  | readFails ec response r b c es hr' he hb =>
    cases hr.symm.trans hr'
    cases hb

/-- Once the parser has thrown, the calls from another thread are all that happens. -/
theorem calls_after_throw {s s' : Connection HandlerType}
    {as : List (ConnectionAction HandlerType)} {log : List (Event HandlerType)}
    (ht : s.read.threw = true) (h : Run step s as s' log) :
    s'.read = s.read ∧ ∀ a ∈ as, ∃ request hdl, a = .client (.asyncRequest request hdl) := by
  induction h with
  | nil => exact ⟨rfl, List.forall_mem_nil _⟩
  | snoc _ hs ih =>
    obtain ⟨hread, hcalls⟩ := ih
    obtain ⟨hread', hcall⟩ := threw_step (hread ▸ ht) hs
    exact ⟨hread'.trans hread, List.forall_mem_append.mpr
      ⟨hcalls, List.forall_mem_singleton.mpr hcall⟩⟩

end Connection

/-! ### What arrives -/

/-- Responses, each with its bytes, and one that the end of the stream cuts. -/
structure CutStream where
  messages : List (Response × Str)
  cut : Response
  received : Str
  missing : Str
  complete : ∀ m ∈ messages, scanResponse default m.2 = .done m.1 [] ∧ HeaderFits m.2
  isCut : scanResponse default (received ++ missing) = .done cut [] ∧
    HeaderFits (received ++ missing)
  missing_ne : missing ≠ []

namespace CutStream
variable (v : CutStream)

theorem incomplete : parseResponse v.received = none := by
  by_contra hsome
  obtain ⟨⟨a, rest⟩, hparse⟩ := Option.ne_none_iff_exists'.mp hsome
  obtain ⟨r, hscan, -⟩ := scan_of_parse hparse
  have hwhole := (incremental_scanResponse default).done_append hscan v.missing
  rw [v.isCut.1] at hwhole
  cases rest with
  | nil =>
    injection hwhole with _ hrest
    exact v.missing_ne hrest.symm
  | cons c rest => cases hwhole

def stream : ResponseStream responseReader where
  messages := v.messages.map fun m => (m.1.passed, m.2)
  tail := v.received
  complete m hm := by
    obtain ⟨m', hm', rfl⟩ := List.mem_map.mp hm
    exact parse_of_scan (v.complete m' hm').1
  incomplete := v.incomplete

/- How the read of the response that is cut fails. -/
def endError : HttpError := if v.received = [] then .endOfStream else .partialMessage

/- What is left of the stream is part of a response, or of more than one. -/
theorem part {v : CutStream} {rest : List (HttpResponse × Str)} {buffer pending : Str}
    (hrest : rest <:+ v.stream.messages) (hbytes : buffer ++ pending = v.stream.bytesOf rest) :
    ∃ r tail, scanResponse default (buffer ++ (pending ++ v.missing)) = .done r tail ∧
      HeaderFits (buffer ++ (pending ++ v.missing)) := by
  rw [← List.append_assoc, hbytes]
  cases rest with
  | nil => exact ⟨v.cut, [], v.isCut⟩
  | cons m rest =>
    obtain ⟨m', hm', rfl⟩ := List.mem_map.mp (hrest.subset (List.mem_cons_self ..))
    obtain ⟨hscan, hfits⟩ := v.complete m' hm'
    have hcut : v.stream.bytesOf ((m'.1.passed, m'.2) :: rest) ++ v.missing =
        m'.2 ++ (v.stream.bytesOf rest ++ v.missing) := by
      simp only [ResponseStream.bytesOf, List.flatMap_cons, List.append_assoc]
    rw [hcut]
    exact ⟨m'.1, _, (incremental_scanResponse default).done_append hscan _, hfits.append hscan _⟩

end CutStream

/-! ### The machine of whole messages -/

namespace Client

/- A read is started by a handler, while the loop runs. -/
theorem reads_of_step {c c' : Client HandlerType} {a : Action HandlerType}
    {es : List (Event HandlerType)} (ha : Connection.isRead a = false)
    (hs : step c a = some (c', es)) :
    c.reads ≤ c'.reads ∧ (c.reads < c'.reads → c'.loop = .running) := by
  cases move_of_step hs with
  | handshaken hc => exact ⟨Nat.le_succ _, fun _ => hc.1⟩
  | callbackReturn hl => exact ⟨Nat.le_succ _, fun _ => hl⟩
  | readFailed | deliver | unsolicited => cases ha
  | _ => exact ⟨Nat.le_refl _, fun h => absurd h (Nat.lt_irrefl _)⟩

theorem running_of_onRead {c c' : Client HandlerType} {ec : ErrorCode} {response : HttpResponse}
    {es : List (Event HandlerType)} (hs : step c (.onRead ec response) = some (c', es)) :
    c'.loop = .running := by
  cases move_of_step hs with
  | readFailed ec response hc => exact hc.1
  | deliver response mRequest req hdl hc => exact hc.1
  | unsolicited response hc => exact hc.1

theorem readFailures_of_failed {c c' : Client HandlerType} {ec : ErrorCode}
    {response : HttpResponse} {es : List (Event HandlerType)} (he : ec ≠ 0)
    (hs : step c (.onRead ec response) = some (c', es)) : readFailures es ≠ [] := by
  cases move_of_step hs with
  | readFailed ec response hc => exact List.cons_ne_nil _ _
  | deliver | unsolicited => exact absurd rfl he

end Client

namespace Connection
variable {v : CutStream}

/-- Whole messages are read off `w.mBuffer`: it holds what has come since the read began. -/
inductive ReadsAs (v : CutStream) (s : Connection HandlerType) (w : Wire HandlerType Char)
    (log : List (Event HandlerType)) : Prop
  | idle (b) (hr : s.read = .idle b) (hn : s.client.reads = 0)
      (hb : w.mBuffer = b ∨ Client.readFailures log ≠ [])
  | busy (r b chunks) (hr : s.read = .busy r) (hn : 0 < s.client.reads)
      (hb : w.mBuffer = b ++ chunks.flatten) (hread : asyncRead default b chunks = (r, []))
  | ended (hr : s.read = .busy (.failed v.endError)) (hn : 0 < s.client.reads)
      (hw : s.arriving = []) (hb : w.mBuffer = v.received)

structure Follows (v : CutStream) (s : Connection HandlerType) (log : List (Event HandlerType))
    (w : Wire HandlerType Char) (rest : List (HttpResponse × Str)) : Prop where
  client : w.client = s.client
  arriving : w.arriving = s.arriving
  read : ReadsAs v s w log
  reads : Wire.Reads v.stream w log rest

/- A step as one of the machine of whole messages; the end of the stream is none of it. -/
def whole : ConnectionAction HandlerType → Option (WireAction HandlerType)
  | .client a => some (.client a)
  | .arrive => some .arrive
  | .endOfStream => none
  | .readComplete => some .readComplete
  | .readFails ec response => some (.client (.onRead ec response))

theorem receive_idle (r : ResponseParser.Reading) : receive r [] = (r, []) := by
  cases r <;> rfl

theorem receive_snoc {r : ResponseParser.Reading} {p : BasicParser} {b chunk : Str}
    {chunks : List Str} (h : receive r chunks = (.waiting p b, [])) :
    receive r (chunks ++ [chunk]) = (readBuffer p (b ++ chunk), []) := by
  induction chunks generalizing r with
  | nil =>
    rw [receive_idle] at h
    cases h
    exact receive_idle _
  | cons c chunks ih =>
    cases r with
    | waiting p' b' => exact ih h
    | delivered m rest => cases h
    | failed e => cases h

theorem ReadsAs.begin {s : Connection HandlerType} {w : Wire HandlerType Char}
    {log : List (Event HandlerType)} {b : Str}
    (hphase : (Client.Reading s.client log ∧ Client.Serial s.client) ∨ Client.LoopLeft s.client)
    (hrun : 0 < s.client.reads → s.client.loop = .running)
    (hb : w.mBuffer = b ∨ Client.readFailures log ≠ [])
    (hread : s.read = Connection.begin s.client (.idle b)) : ReadsAs v s w log := by
  unfold Connection.begin at hread
  by_cases hn : 0 < s.client.reads
  · rcases hphase with ⟨hreading, -⟩ | hleft
    · obtain ⟨-, -, -, hnone, hm⟩ := hreading.of_reads hn
      have hb := hb.resolve_right fun hne => hne hnone
      dsimp only at hread
      rw [if_pos hn, hm] at hread
      refine .busy _ b [] hread hn (by rw [hb, List.flatten_nil, List.append_nil]) ?_
      exact receive_idle _
    · exact absurd (hrun hn) hleft.begun.1
  · dsimp only at hread
    rw [if_neg hn] at hread
    exact .idle b hread (Nat.eq_zero_of_not_pos hn) hb

/- What the step is for the machine of whole messages. -/
def Matched (v : CutStream) (s' : Connection HandlerType) (log es : List (Event HandlerType))
    (w : Wire HandlerType Char) (rest : List (HttpResponse × Str))
    (a : Option (WireAction HandlerType)) : Prop :=
  match a with
  | some a => ∃ w' rest', Wire.step responseReader w a = some (w', es) ∧
      Follows v s' (log ++ es) w' rest' ∧ rest'.length + Wire.taken a = rest.length
  | none => es = [] ∧ Follows v s' log w rest

/- Either machine makes the step of the client. -/
theorem Follows.matched {s s' : Connection HandlerType} {log es : List (Event HandlerType)}
    {w w' : Wire HandlerType Char} {rest : List (HttpResponse × Str)}
    {a : WireAction HandlerType} (h : Follows v s log w rest)
    (hs : Wire.step responseReader w a = some (w', es)) (hclient : w'.client = s'.client)
    (harriving : w'.arriving = s'.arriving)
    (hread : (Client.Reading s'.client (log ++ es) ∧ Client.Serial s'.client) ∨
        Client.LoopLeft s'.client → ReadsAs v s' w' (log ++ es)) :
    Matched v s' log es w rest (some a) := by
  obtain ⟨rest', hreads, htaken⟩ := h.reads.step hs
  have hphase := hreads.phase
  rw [hclient] at hphase
  exact ⟨w', rest', hs, ⟨hclient, harriving, hread hphase, hreads⟩, htaken⟩

theorem readFailures_ne {log : List (Event HandlerType)} (h : Client.readFailures log ≠ [])
    (es : List (Event HandlerType)) : Client.readFailures (log ++ es) ≠ [] := by
  rw [Client.readFailures_append]
  exact List.append_ne_nil_of_left_ne_nil h _

theorem Follows.client_step {s : Connection HandlerType} {c : Client HandlerType}
    {log es : List (Event HandlerType)} {w : Wire HandlerType Char}
    {rest : List (HttpResponse × Str)} {a : Action HandlerType} (h : Follows v s log w rest)
    (ha : isRead a = false) (hs : Client.step s.client a = some (c, es)) :
    Matched v { s with client := c, read := Connection.begin c s.read } log es w rest
      (some (.client a)) := by
  have hnot : Wire.readSucceeds a = false := by
    cases a <;> first | rfl | cases ha
  have hw : Wire.step responseReader w (.client a) = some ({ w with client := c }, es) := by
    simp only [Wire.step, hnot, h.client, hs, Bool.false_eq_true, if_false, Option.map_some]
  obtain ⟨hmono, hrun⟩ := Client.reads_of_step ha hs
  refine h.matched hw rfl h.arriving fun hphase => ?_
  cases h.read with
  | idle b hr hn hb =>
    refine .begin hphase (fun hpos => hrun (hn ▸ hpos)) ?_ (congrArg (Connection.begin c) hr)
    exact hb.imp_right fun hne => readFailures_ne hne es
  | busy r b chunks hr hn hb hread =>
    refine .busy r b chunks ?_ (Nat.lt_of_lt_of_le hn hmono) hb hread
    show Connection.begin c s.read = _
    rw [hr]
    rfl
  | ended hr hn hw hb =>
    refine .ended ?_ (Nat.lt_of_lt_of_le hn hmono) hw hb
    show Connection.begin c s.read = _
    rw [hr]
    rfl

/- While the read waits there is no whole message. -/
theorem Follows.unparsed {s : Connection HandlerType} {log : List (Event HandlerType)}
    {w : Wire HandlerType Char} {rest : List (HttpResponse × Str)} {p : BasicParser}
    {b left : Str} {chunks : List Str} (h : Follows v s log w rest)
    (hb : w.mBuffer = b ++ chunks.flatten)
    (hread : asyncRead default b chunks = (.waiting p left, [])) :
    parseResponse w.mBuffer = none := by
  by_contra hsome
  obtain ⟨⟨a, tail⟩, hparse⟩ := Option.ne_none_iff_exists'.mp hsome
  obtain ⟨r, hscan, -⟩ := scan_of_parse hparse
  obtain ⟨-, -, -, hfits⟩ := CutStream.part h.reads.suffix h.reads.bytes
  rw [hb] at hscan hfits
  obtain ⟨left', unread, hdone, -⟩ := asyncRead_delivers hscan hfits.of_append
  rw [hread] at hdone
  cases hdone

theorem Follows.arrive_step {s : Connection HandlerType} {log : List (Event HandlerType)}
    {w : Wire HandlerType Char} {rest : List (HttpResponse × Str)} {p : BasicParser}
    {left chunk : Str} {arriving : List Str} (h : Follows v s log w rest)
    (hr : s.read = .busy (.waiting p left)) (ha : s.arriving = chunk :: arriving)
    (hc : s.client.canHandle) :
    Matched v { s with read := .busy (readBuffer p (left ++ chunk)), arriving := arriving } log []
      w rest (some .arrive) := by
  cases h.read with
  | idle b hr' => cases hr.symm.trans hr'
  | ended hr' => cases hr.symm.trans hr'
  | busy r b chunks hr' hn hb hread =>
    cases hr.symm.trans hr'
    have hguard : w.client.canHandle ∧ 0 < w.client.reads ∧
        (responseReader.parse w.mBuffer).isNone = true := by
      rw [h.client]
      exact ⟨hc, hn, Option.isNone_iff_eq_none.mpr (h.unparsed hb hread)⟩
    have hw : Wire.step responseReader w .arrive =
        some ({ w with mBuffer := w.mBuffer ++ chunk, arriving := arriving }, []) := by
      simp only [Wire.step, h.arriving, ha]
      rw [if_pos hguard]
    refine h.matched hw h.client rfl fun _ => ?_
    refine .busy _ b (chunks ++ [chunk]) rfl hn ?_ (receive_snoc hread)
    rw [hb, List.flatten_append, List.flatten_singleton, List.append_assoc]

/- The stream ends after the whole messages. -/
theorem Follows.endOfStream_step {s : Connection HandlerType} {log : List (Event HandlerType)}
    {w : Wire HandlerType Char} {rest : List (HttpResponse × Str)} {p : BasicParser} {left : Str}
    (h : Follows v s log w rest) (hr : s.read = .busy (.waiting p left)) (ha : s.arriving = []) :
    Matched v { s with read := .busy (readEof (.waiting p left)) } log [] w rest none := by
  cases h.read with
  | idle b hr' => cases hr.symm.trans hr'
  | ended hr' => cases hr.symm.trans hr'
  | busy r b chunks hr' hn hb hread =>
    cases hr.symm.trans hr'
    have hbytes := h.reads.bytes
    rw [h.arriving, ha, List.flatten_nil, List.append_nil] at hbytes
    have hnone := h.unparsed hb hread
    have hend := ResponseStream.nothing_left h.reads.suffix hbytes hnone
    have hreceived : w.mBuffer = v.received := by
      rw [hbytes, hend]
      rfl
    have hfail : readEof (.waiting p left) = .failed v.endError := by
      rw [hb] at hreceived
      have hscan := v.isCut
      rw [← hreceived, List.append_assoc] at hscan
      obtain ⟨left', unread, hdone, -⟩ | ⟨p', left', hwait, heof⟩ :=
        asyncRead_of_part hscan.1 hscan.2
      · rw [hread] at hdone
        cases hdone
      · rw [hread] at hwait
        cases hwait
        rw [heof, CutStream.endError, hreceived]
    refine ⟨rfl, h.client, h.arriving, .ended ?_ hn ha hreceived, h.reads⟩
    exact congrArg _ hfail

theorem Follows.complete_step {s : Connection HandlerType} {c : Client HandlerType}
    {log es : List (Event HandlerType)} {w : Wire HandlerType Char}
    {rest : List (HttpResponse × Str)} {m : Response} {left : Str} (h : Follows v s log w rest)
    (hr : s.read = .busy (.delivered m left))
    (hs : Client.step s.client (.onRead 0 m.passed) = some (c, es)) :
    Matched v { s with client := c, read := Connection.begin c (.idle left) } log es w rest
      (some .readComplete) := by
  cases h.read with
  | idle b hr' => cases hr.symm.trans hr'
  | ended hr' => cases hr.symm.trans hr'
  | busy r b chunks hr' hn hb hread =>
    cases hr.symm.trans hr'
    obtain ⟨read, σ, hchunks, rfl, hscan⟩ := receive_sound (initial_ready default b) hread
    rw [List.append_nil] at hchunks
    subst hchunks
    have hparse : responseReader.parse w.mBuffer = some (σ.m.passed, left) := by
      rw [hb]
      exact parse_of_scan (scanResponse_of_message hscan)
    have hreset : Wire.received s.client.mHttpResult σ.m.passed = σ.m.passed :=
      Wire.received_of_read (h.client ▸ h.reads.phase) hs
    have hw : Wire.step responseReader w .readComplete =
        some ({ w with client := c, mBuffer := left }, es) := by
      simp only [Wire.step, hparse, hreset, h.client, hs, Option.map_some]
    refine h.matched hw rfl h.arriving fun hphase => ?_
    exact .begin hphase (fun _ => Client.running_of_onRead hs) (.inl rfl) rfl

theorem Follows.fail_step {s : Connection HandlerType} {c : Client HandlerType}
    {log es : List (Event HandlerType)} {w : Wire HandlerType Char}
    {rest : List (HttpResponse × Str)} {ec : ErrorCode} {response : HttpResponse} (b : Str)
    (h : Follows v s log w rest) (he : ec ≠ 0)
    (hs : Client.step s.client (.onRead ec response) = some (c, es)) :
    Matched v { s with client := c, read := Connection.begin c (.idle b) } log es w rest
      (some (.client (.onRead ec response))) := by
  have hnot : Wire.readSucceeds (.onRead ec response : Action HandlerType) = false :=
    beq_eq_false_iff_ne.mpr he
  have hw : Wire.step responseReader w (.client (.onRead ec response)) =
      some ({ w with client := c }, es) := by
    simp only [Wire.step, hnot, h.client, hs, Bool.false_eq_true, if_false, Option.map_some]
  refine h.matched hw rfl h.arriving fun hphase => ?_
  refine .begin hphase (fun _ => Client.running_of_onRead hs) (.inr ?_) rfl
  rw [Client.readFailures_append]
  exact List.append_ne_nil_of_right_ne_nil _ (Client.readFailures_of_failed he hs)

theorem Follows.step {s s' : Connection HandlerType} {log es : List (Event HandlerType)}
    {w : Wire HandlerType Char} {rest : List (HttpResponse × Str)}
    {a : ConnectionAction HandlerType} (h : Follows v s log w rest)
    (hs : step s a = some (s', es)) : Matched v s' log es w rest (whole a) := by
  cases move_of_step hs with
  | client a c es ha hs => exact h.client_step (isRead_of_permits ha) hs
  | arrive p b chunk arriving hr ha hc => exact h.arrive_step hr ha hc
  | endOfStream p b hr ha hc => exact h.endOfStream_step hr ha
  | readComplete m left c es hr hs => exact h.complete_step hr hs
  | readFails ec response r b c es hr he hb hs => exact h.fail_step b he hs

theorem follows_of_run [Inhabited HandlerType] {mHost : Str} {chunks : List Str}
    (hchunks : chunks.flatten = v.stream.bytes) {as : List (ConnectionAction HandlerType)}
    {s : Connection HandlerType} {log : List (Event HandlerType)}
    (h : Run step (initial mHost chunks) as s log) :
    ∃ w rest, Run (Wire.step responseReader) (.initial mHost chunks) (as.filterMap whole) w log ∧
      Follows v s log w rest := by
  induction h with
  | nil =>
    refine ⟨.initial mHost chunks, v.stream.messages, .nil, rfl, rfl, ?_, ?_⟩
    · exact .idle [] rfl rfl (.inl rfl)
    · refine ⟨List.suffix_refl _, rfl, hchunks, .inl ⟨?_, Client.initial_serial mHost⟩⟩
      exact .before rfl rfl rfl List.not_mem_nil rfl
  | @snoc as s log a s' es _ hs ih =>
    obtain ⟨w, rest, hrun, hfollows⟩ := ih
    have hmatched := hfollows.step hs
    rw [List.filterMap_append]
    cases ha : whole a with
    | none =>
      rw [ha] at hmatched
      obtain ⟨rfl, hfollows'⟩ := hmatched
      refine ⟨w, rest, ?_, ?_⟩
      · simpa [ha] using hrun
      · rw [List.append_nil]
        exact hfollows'
    | some a' =>
      rw [ha] at hmatched
      obtain ⟨w', rest', hstep, hfollows', -⟩ := hmatched
      refine ⟨w', rest', ?_, hfollows'⟩
      rw [List.filterMap_cons_some ha]
      exact hrun.snoc hstep

/-! ### Running until nothing is left to read -/

/- The steps of the read loop itself. -/
def readSteps : List (ConnectionAction HandlerType) :=
  [.arrive, .readComplete, .client .callbackReturn]

theorem whole_readSteps {a : ConnectionAction HandlerType} (ha : a ∈ readSteps) :
    ∃ a', whole a = some a' ∧ a' ∈ Wire.readSteps := by
  simp only [readSteps, List.mem_cons, List.not_mem_nil, or_false] at ha
  rcases ha with rfl | rfl | rfl <;> exact ⟨_, rfl, by simp [Wire.readSteps]⟩

/- No part of the stream makes the parser fail. -/
theorem Follows.not_failed {s : Connection HandlerType} {log : List (Event HandlerType)}
    {w : Wire HandlerType Char} {rest : List (HttpResponse × Str)} {b : Str} {chunks : List Str}
    {e : HttpError} (h : Follows v s log w rest) (hb : w.mBuffer = b ++ chunks.flatten) :
    asyncRead default b chunks ≠ (.failed e, []) := by
  intro hread
  obtain ⟨r, tail, hscan, hfits⟩ := CutStream.part h.reads.suffix h.reads.bytes
  rw [hb, List.append_assoc] at hscan hfits
  obtain ⟨left, unread, hdone, -⟩ | ⟨p, left, hwait, -⟩ := asyncRead_of_part hscan hfits
  · cases hread.symm.trans hdone
  · cases hread.symm.trans hwait

/- When the read has failed the stream has ended, behind its whole messages. -/
theorem Follows.failed {s : Connection HandlerType} {log : List (Event HandlerType)}
    {w : Wire HandlerType Char} {rest : List (HttpResponse × Str)} {e : HttpError}
    (h : Follows v s log w rest) (hr : s.read = .busy (.failed e)) :
    e = v.endError ∧ s.arriving = [] ∧ rest = [] := by
  cases h.read with
  | idle b hr' => cases hr.symm.trans hr'
  | busy r b chunks hr' hn hb hread =>
    cases hr.symm.trans hr'
    exact absurd hread (h.not_failed hb)
  | ended hr' hn hw hb =>
    cases hr.symm.trans hr'
    have hbytes := h.reads.bytes
    rw [h.arriving, hw, List.flatten_nil, List.append_nil] at hbytes
    exact ⟨rfl, hw, ResponseStream.nothing_left h.reads.suffix hbytes (hb ▸ v.incomplete)⟩

/- Nor does it make it throw. -/
theorem Follows.not_threw {s : Connection HandlerType} {log : List (Event HandlerType)}
    {w : Wire HandlerType Char} {rest : List (HttpResponse × Str)} (h : Follows v s log w rest) :
    s.read.threw = false := by
  unfold ReadState.threw
  split
  · rename_i hr
    have hend := (h.failed hr).1
    unfold CutStream.endError at hend
    split at hend <;> cases hend
  · rfl

/- The read loop of a live session that can do nothing has read all. -/
theorem Follows.stuck {s : Connection HandlerType} {log : List (Event HandlerType)}
    {w : Wire HandlerType Char} {rest : List (HttpResponse × Str)} (h : Follows v s log w rest)
    (hl : Wire.Live s.client) (hs : ∀ a ∈ readSteps, Connection.step s a = none) : rest = [] := by
  have hidle : s.client.inCallback = false := by
    refine Bool.eq_false_of_not_eq_true fun hi => ?_
    have hnone := hs (.client .callbackReturn) (by simp [readSteps])
    simp [Connection.step, permits, h.not_threw, Client.step_callbackReturn hl.running hi] at hnone
  have hc : s.client.canHandle := ⟨hl.running, hl.unstopped, hidle⟩
  cases hread : s.read with
  | idle b =>
    have hphase := h.reads.phase
    rw [h.client] at hphase
    cases h.read with
    | busy r b chunks hr => cases hread.symm.trans hr
    | ended hr => cases hread.symm.trans hr
    | idle b hr hn hb =>
      rcases hphase with ⟨hreading, -⟩ | hleft
      · cases hreading with
        | before hn => exact absurd (hn.symm.trans hl.ready) Bool.false_ne_true
        | waiting _ hr => omega
        | calling _ hr hi => exact absurd (hidle.symm.trans hi) Bool.false_ne_true
        | failed _ hr hi hd hf hst => exact absurd (hl.unstopped.symm.trans hst) Bool.false_ne_true
      · exact absurd hl.running hleft.begun.1
  | busy r =>
    cases r with
    | failed e => exact (h.failed hread).2.2
    | delivered m left =>
      have hnone := hs .readComplete (by simp [readSteps])
      have hn : 0 < s.client.reads := by
        cases h.read with
        | idle b hr => cases hread.symm.trans hr
        | ended hr => cases hread.symm.trans hr
        | busy r b chunks hr hn => exact hn
      simp [Connection.step, hread, Client.step, if_pos (And.intro hc hn)] at hnone
    | waiting p left =>
      cases h.read with
      | idle b hr => cases hread.symm.trans hr
      | ended hr => cases hread.symm.trans hr
      | busy r b chunks hr hn hb hwait =>
        cases hread.symm.trans hr
        have hempty : s.arriving = [] := by
          by_contra hne
          obtain ⟨chunk, arriving, ha⟩ := List.exists_cons_of_ne_nil hne
          have hnone := hs .arrive (by simp [readSteps])
          simp [Connection.step, hread, ha, hc] at hnone
        have hbytes := h.reads.bytes
        rw [h.arriving, hempty, List.flatten_nil, List.append_nil] at hbytes
        exact ResponseStream.nothing_left h.reads.suffix hbytes (h.unparsed hb hwait)

theorem Follows.can_settle {s : Connection HandlerType} {log : List (Event HandlerType)}
    {w : Wire HandlerType Char} {rest : List (HttpResponse × Str)} (h : Follows v s log w rest)
    (hl : Wire.Live s.client) :
    ∃ bs s' log' w', Run Connection.step s bs s' log' ∧ (∀ b ∈ bs, b ∈ readSteps) ∧
      Wire.Live s'.client ∧ Follows v s' (log ++ log') w' [] := by
  generalize hn : Wire.work w rest = n
  induction n using Nat.strong_induction_on generalizing s log w rest with
  | _ n ih =>
    by_cases hstuck : ∀ a ∈ readSteps, Connection.step s a = none
    · cases h.stuck hl hstuck
      refine ⟨[], s, [], w, .nil, List.forall_mem_nil _, hl, ?_⟩
      rw [List.append_nil]
      exact h
    · push Not at hstuck
      obtain ⟨a, ha, hsome⟩ := hstuck
      obtain ⟨⟨s₁, es⟩, hs⟩ := Option.ne_none_iff_exists'.mp hsome
      obtain ⟨a', hwhole, ha'⟩ := whole_readSteps ha
      have hmatched := h.step hs
      rw [hwhole] at hmatched
      obtain ⟨w₁, rest₁, hw, h₁, htaken⟩ := hmatched
      have hl₁ : Wire.Live s₁.client := h₁.client ▸ Wire.live_step ha' (h.client ▸ hl) hw
      obtain ⟨bs, s', log', w', hrun, hbs, hlive, hdone⟩ :=
        ih (Wire.work w₁ rest₁) (hn ▸ Wire.work_step ha' hw htaken) h₁ hl₁ rfl
      refine ⟨a :: bs, s', es ++ log', w', (Run.single hs).append hrun, ?_, hlive, ?_⟩
      · exact List.forall_mem_cons.mpr ⟨ha, hbs⟩
      · rw [← List.append_assoc]
        exact hdone

/-! ### The responses that are processed -/

/-- The client processes the responses of the stream, in order and each as it was sent. -/
structure Processes (v : CutStream) (s : Connection HandlerType)
    (log : List (Event HandlerType)) : Prop where
  inOrder : Client.responsesRead log <+: v.messages.map fun m => m.1.passed
  -- the parser has no error to report but the end of the stream, and not before the last response
  failed : ∀ e, s.read = .busy (.failed e) → e = v.endError ∧ s.arriving = [] ∧
    Client.responsesRead log = v.messages.map fun m => m.1.passed
  -- and nothing but the end of the session keeps the read loop from getting there
  settles : Wire.Live s.client → ∃ bs s' log', Run step s bs s' log' ∧ (∀ b ∈ bs, b ∈ readSteps) ∧
    Client.responsesRead (log ++ log') = v.messages.map fun m => m.1.passed

theorem responses_stream (v : CutStream) :
    v.stream.responses = v.messages.map fun m => m.1.passed := List.map_map

theorem Follows.all {s : Connection HandlerType} {log : List (Event HandlerType)}
    {w : Wire HandlerType Char} (h : Follows v s log w []) :
    Client.responsesRead log = v.messages.map fun m => m.1.passed := by
  rw [← responses_stream, h.reads.processed]
  exact (List.append_nil _).symm

end Connection
end RestClient
