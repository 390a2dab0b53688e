import RestClient.Lib.Parsing
import RestClient.LoopExit
import RestClient.ReadLoop

/-!
# Reading from the stream

`http::async_read` parses what is in `mBuffer`, reads further bytes into it while the
message is incomplete, and leaves there what follows the message. The bytes arrive in
chunks that the connection chooses. The body is appended to the one of the message it is
given, the vendored parser clears only the header (http/impl/parser.hpp, string_body.hpp).
-/

namespace RestClient
open Machine Parsing
variable {HandlerType β : Type}

/-- What is assumed of reading one message: bytes that arrive later change neither a
complete message nor where it ends. -/
structure MessageReader (β : Type) where
  parse : Parser β HttpResponse
  stable : Stable parse

/-- The client with the bytes read ahead and the chunks that will arrive. -/
structure Wire (HandlerType β : Type) where
  client : Client HandlerType
  mBuffer : List β
  arriving : List (List β)

inductive WireAction (HandlerType : Type) where
  | client (a : Action HandlerType)
  | arrive
  | readComplete
  deriving DecidableEq

namespace Wire

def initial [Inhabited HandlerType] (mHost : Str) (chunks : List (List β)) :
    Wire HandlerType β := ⟨Client.initial mHost, [], chunks⟩

/- The message `mHttpResult` holds when the read of `r` into it completes. -/
def received (mHttpResult r : HttpResponse) : HttpResponse :=
  { r with body := mHttpResult.body ++ r.body }

def readSucceeds : Action HandlerType → Bool
  | .onRead ec _ => ec == 0
  | _ => false

/- A read succeeds only by `readComplete`; all else happens as before, the failure of a
read included. -/
def step (reader : MessageReader β) :
    Step (Wire HandlerType β) (WireAction HandlerType) (Event HandlerType)
  | w, .client a =>
    if readSucceeds a then none
    else (Client.step w.client a).map fun r => ({ w with client := r.1 }, r.2)
  | w, .arrive =>
    match w.arriving with
    | [] => none
    | chunk :: rest =>
      if w.client.canHandle ∧ 0 < w.client.reads ∧ (reader.parse w.mBuffer).isNone then
        some ({ w with mBuffer := w.mBuffer ++ chunk, arriving := rest }, [])
      else none
  | w, .readComplete =>
    match reader.parse w.mBuffer with
    | none => none
    | some (response, rest) =>
      (Client.step w.client (.onRead 0 (received w.client.mHttpResult response))).map fun r =>
        ({ w with client := r.1, mBuffer := rest }, r.2)

inductive Move (reader : MessageReader β) (w : Wire HandlerType β) :
    WireAction HandlerType → Wire HandlerType β → List (Event HandlerType) → Prop
  | client (a c es) (ha : ∀ response, a ≠ .onRead 0 response)
      (hs : Client.step w.client a = some (c, es)) :
      Move reader w (.client a) { w with client := c } es
  | arrive (chunk rest) (hw : w.arriving = chunk :: rest) (hc : w.client.canHandle)
      (hr : 0 < w.client.reads) (hp : reader.parse w.mBuffer = none) :
      Move reader w .arrive { w with mBuffer := w.mBuffer ++ chunk, arriving := rest } []
  | readComplete (response rest c es) (hp : reader.parse w.mBuffer = some (response, rest))
      (hs : Client.step w.client (.onRead 0 (received w.client.mHttpResult response)) =
        some (c, es)) :
      Move reader w .readComplete { w with client := c, mBuffer := rest } es

variable {reader : MessageReader β}

theorem move_of_step {w w' : Wire HandlerType β} {a : WireAction HandlerType}
    {es : List (Event HandlerType)} (h : step reader w a = some (w', es)) :
    Move reader w a w' es := by
  cases a with
  | client a =>
    obtain ⟨hnot, h⟩ := Option.ite_none_left_eq_some.mp h
    obtain ⟨⟨c, es'⟩, hs, he⟩ := Option.map_eq_some_iff.mp h
    cases he
    refine .client a c _ ?_ hs
    rintro response rfl
    exact hnot rfl
  | arrive =>
    cases hw : w.arriving with
    | nil => simp [step, hw] at h
    | cons chunk rest =>
      simp only [step, hw] at h
      obtain ⟨⟨hc, hr, hp⟩, h⟩ := Option.ite_none_right_eq_some.mp h
      cases h
      exact .arrive chunk rest hw hc hr (Option.isNone_iff_eq_none.mp hp)
  | readComplete =>
    cases hp : reader.parse w.mBuffer with
    | none => simp [step, hp] at h
    | some r =>
      obtain ⟨response, rest⟩ := r
      simp only [step, hp] at h
      obtain ⟨⟨c, es'⟩, hs, he⟩ := Option.map_eq_some_iff.mp h
      cases he
      exact .readComplete response rest c _ hp hs

end Wire

/-! ### What arrives -/

/-- Complete messages, each with its bytes, and then an incomplete one. -/
structure ResponseStream (reader : MessageReader β) where
  messages : List (HttpResponse × List β)
  tail : List β
  complete : ∀ m ∈ messages, reader.parse m.2 = some (m.1, [])
  incomplete : reader.parse tail = none

namespace ResponseStream
variable {reader : MessageReader β} (v : ResponseStream reader)

def bytesOf (rest : List (HttpResponse × List β)) : List β := rest.flatMap Prod.snd ++ v.tail

def bytes : List β := v.bytesOf v.messages

def responses : List HttpResponse := v.messages.map Prod.fst

/- What is parsed off a buffer is the first message left, however much has arrived. -/
theorem parse_front {v : ResponseStream reader} {rest : List (HttpResponse × List β)}
    {buffer pending left : List β} {response : HttpResponse} (hrest : rest <:+ v.messages)
    (hbytes : buffer ++ pending = v.bytesOf rest)
    (hp : reader.parse buffer = some (response, left)) :
    ∃ m rest', rest = (response, m) :: rest' ∧ left ++ pending = v.bytesOf rest' := by
  have hwhole := reader.stable buffer response left pending hp
  rw [hbytes] at hwhole
  cases rest with
  | nil =>
    have hnone : reader.parse (v.bytesOf []) = none := v.incomplete
    rw [hnone] at hwhole
    cases hwhole
  | cons m rest =>
    have hm := v.complete m (hrest.subset (List.mem_cons_self ..))
    have hfirst := reader.stable m.2 m.1 [] (v.bytesOf rest) hm
    have hcut : v.bytesOf (m :: rest) = m.2 ++ v.bytesOf rest := by
      rw [bytesOf, List.flatMap_cons, List.append_assoc]
      rfl
    rw [hcut, hfirst] at hwhole
    obtain ⟨hresponse, hleft⟩ := Prod.mk.inj (Option.some.inj hwhole)
    exact ⟨m.2, rest, by rw [← hresponse], hleft.symm⟩

/- Nothing can be parsed only when no message is left. -/
theorem nothing_left {v : ResponseStream reader} {rest : List (HttpResponse × List β)}
    {buffer : List β} (hrest : rest <:+ v.messages) (hbytes : buffer = v.bytesOf rest)
    (hp : reader.parse buffer = none) : rest = [] := by
  cases rest with
  | nil => rfl
  | cons m rest =>
    have hm := v.complete m (hrest.subset (List.mem_cons_self ..))
    have hfirst := reader.stable m.2 m.1 [] (v.bytesOf rest) hm
    rw [hbytes, bytesOf, List.flatMap_cons, List.append_assoc] at hp
    exact absurd (hp.symm.trans hfirst) (Option.some_ne_none _).symm

end ResponseStream

/-! ### The read loop on a stream -/

namespace Wire
variable {reader : MessageReader β} {v : ResponseStream reader}

/- The messages processed are the first ones of the stream; `rest` is still to be parsed. -/
structure Reads (v : ResponseStream reader) (w : Wire HandlerType β)
    (log : List (Event HandlerType)) (rest : List (HttpResponse × List β)) : Prop where
  suffix : rest <:+ v.messages
  processed : v.responses = Client.responsesRead log ++ rest.map Prod.fst
  bytes : w.mBuffer ++ w.arriving.flatten = v.bytesOf rest
  phase : (Client.Reading w.client log ∧ Client.Serial w.client) ∨ Client.LoopLeft w.client

theorem phase_step {c c' : Client HandlerType} {log es : List (Event HandlerType)}
    {a : Action HandlerType} (h : (Client.Reading c log ∧ Client.Serial c) ∨ Client.LoopLeft c)
    (hs : Client.step c a = some (c', es)) :
    (Client.Reading c' (log ++ es) ∧ Client.Serial c') ∨ Client.LoopLeft c' := by
  rcases h with ⟨hread, hser⟩ | hleft
  · by_cases ha : a = .callbackThrow
    · rw [ha] at hs
      cases Client.move_of_step hs with
      | callbackThrow hl hi => exact .inr (.inr ⟨.callback, rfl⟩)
    · exact .inl ⟨Client.reading_step hread hser ha hs, Client.serial_step hser hs⟩
  · exact .inr (hleft.step hs)

/- A read completes into the message that was reset. -/
theorem received_of_read {c c' : Client HandlerType} {log es : List (Event HandlerType)}
    {ec : ErrorCode} {response r : HttpResponse}
    (h : (Client.Reading c log ∧ Client.Serial c) ∨ Client.LoopLeft c)
    (hs : Client.step c (.onRead ec response) = some (c', es)) :
    received c.mHttpResult r = r := by
  obtain ⟨⟨hc, hr⟩, -⟩ := Option.ite_none_right_eq_some.mp hs
  rcases h with ⟨hread, -⟩ | hleft
  · rw [(hread.of_reads hr).2.2.2.2]
    rfl
  · exact absurd hc.1 hleft.begun.1

/- The messages an action takes off the buffer. -/
def taken : WireAction HandlerType → ℕ
  | .readComplete => 1
  | _ => 0

theorem Reads.step {w w' : Wire HandlerType β} {log es : List (Event HandlerType)}
    {rest : List (HttpResponse × List β)} {a : WireAction HandlerType} (h : Reads v w log rest)
    (hs : step reader w a = some (w', es)) :
    ∃ rest', Reads v w' (log ++ es) rest' ∧ rest'.length + taken a = rest.length := by
  cases move_of_step hs with
  | client a c es ha hs =>
    have hnone := (Client.quiet_of_not_read ha hs).1
    refine ⟨rest, ⟨h.suffix, ?_, h.bytes, phase_step h.phase hs⟩, rfl⟩
    rw [Client.responsesRead_append, hnone, List.append_nil]
    exact h.processed
  | arrive chunk arriving hw hc hr hp =>
    refine ⟨rest, ⟨h.suffix, ?_, ?_, ?_⟩, rfl⟩
    · rw [List.append_nil]
      exact h.processed
    · have hbytes := h.bytes
      rw [hw, List.flatten_cons, ← List.append_assoc] at hbytes
      exact hbytes
    · rw [List.append_nil]
      exact h.phase
  | readComplete response left c es hp hs =>
    rw [received_of_read h.phase hs] at hs
    obtain ⟨m, rest', rfl, hleft⟩ := ResponseStream.parse_front h.suffix h.bytes hp
    refine ⟨rest', ⟨?_, ?_, hleft, phase_step h.phase hs⟩, rfl⟩
    · exact (List.suffix_cons _ rest').trans h.suffix
    · rw [Client.responsesRead_append, Client.responsesRead_of_read hs, List.append_assoc]
      exact h.processed

theorem reads_of_run [Inhabited HandlerType] {mHost : Str} {chunks : List (List β)}
    (hchunks : chunks.flatten = v.bytes) {as : List (WireAction HandlerType)}
    {w : Wire HandlerType β} {log : List (Event HandlerType)}
    (h : Run (step reader) (initial mHost chunks) as w log) : ∃ rest, Reads v w log rest := by
  refine h.invariant (fun w log => ∃ rest, Reads v w log rest) ⟨v.messages, ?_⟩ ?_
  · refine ⟨List.suffix_refl _, rfl, hchunks, .inl ⟨?_, Client.initial_serial mHost⟩⟩
    exact .before rfl rfl rfl List.not_mem_nil rfl
  · intro w log a w' es ⟨rest, hreads⟩ hs
    obtain ⟨rest', hreads', -⟩ := hreads.step hs
    exact ⟨rest', hreads'⟩

/-! ### Running until nothing is left to read -/

/- The session is set up, and nothing has ended it. -/
structure Live (c : Client HandlerType) : Prop where
  ready : c.mSessionReady = true
  running : c.loop = .running
  unstopped : c.stopped = false

/- The steps of the read loop itself. -/
def readSteps : List (WireAction HandlerType) := [.arrive, .readComplete, .client .callbackReturn]

/- The read loop waits for bytes that do not come. -/
structure Settled (reader : MessageReader β) (w : Wire HandlerType β) : Prop where
  live : Live w.client
  waiting : ∀ a ∈ readSteps, step reader w a = none

theorem arrive_enabled {w : Wire HandlerType β} (hc : w.client.canHandle)
    (hr : 0 < w.client.reads) (hp : reader.parse w.mBuffer = none) (hne : w.arriving ≠ []) :
    step reader w .arrive ≠ none := by
  obtain ⟨chunk, rest, hw⟩ := List.exists_cons_of_ne_nil hne
  have hguard : w.client.canHandle ∧ 0 < w.client.reads ∧ (reader.parse w.mBuffer).isNone = true :=
    ⟨hc, hr, by rw [hp]; rfl⟩
  simp only [step, hw, if_pos hguard]
  exact Option.some_ne_none _

theorem readComplete_enabled {w : Wire HandlerType β} (hc : w.client.canHandle)
    (hr : 0 < w.client.reads) (hp : reader.parse w.mBuffer ≠ none) :
    step reader w .readComplete ≠ none := by
  obtain ⟨⟨response, left⟩, hp⟩ := Option.ne_none_iff_exists'.mp hp
  simp only [step, hp, Client.step, if_pos (And.intro hc hr), Option.map_some]
  exact Option.some_ne_none _

theorem callbackReturn_enabled {w : Wire HandlerType β} (hl : w.client.loop = .running)
    (hi : w.client.inCallback = true) : step reader w (.client .callbackReturn) ≠ none := by
  simp only [step, readSucceeds, Client.step_callbackReturn hl hi, Option.map_some]
  exact Option.some_ne_none _

theorem Reads.settled {w : Wire HandlerType β} {log : List (Event HandlerType)}
    {rest : List (HttpResponse × List β)} (h : Reads v w log rest) (hs : Settled reader w) :
    rest = [] := by
  have hidle : w.client.inCallback = false := by
    refine Bool.eq_false_of_not_eq_true fun hi => ?_
    exact callbackReturn_enabled hs.live.running hi (hs.waiting _ (by simp [readSteps]))
  have hc : w.client.canHandle := ⟨hs.live.running, hs.live.unstopped, hidle⟩
  have hr : 0 < w.client.reads := by
    rcases h.phase with ⟨hread, -⟩ | hleft | ⟨e, hleft⟩
    · cases hread with
      | before hn => exact absurd (hn.symm.trans hs.live.ready) Bool.false_ne_true
      | waiting hn hr => omega
      | calling hn hr hi => exact absurd (hidle.symm.trans hi) Bool.false_ne_true
      | failed hn hr hi hd hf hst =>
        exact absurd (hs.live.unstopped.symm.trans hst) Bool.false_ne_true
    · exact absurd (hs.live.running.symm.trans hleft) (by decide)
    · exact absurd (hs.live.running.symm.trans hleft) (by simp)
  have hp : reader.parse w.mBuffer = none := by
    by_contra hsome
    exact readComplete_enabled hc hr hsome (hs.waiting _ (by simp [readSteps]))
  have hempty : w.arriving = [] := by
    by_contra hne
    exact arrive_enabled hc hr hp hne (hs.waiting _ (by simp [readSteps]))
  have hbytes := h.bytes
  rw [hempty, List.flatten_nil, List.append_nil] at hbytes
  exact ResponseStream.nothing_left h.suffix hbytes hp

/- What the read loop has still to do. -/
def work (w : Wire HandlerType β) (rest : List (HttpResponse × List β)) : ℕ :=
  2 * rest.length + w.arriving.length + w.client.inCallback.toNat

theorem live_step {w w' : Wire HandlerType β} {es : List (Event HandlerType)}
    {a : WireAction HandlerType} (ha : a ∈ readSteps) (hl : Live w.client)
    (hs : step reader w a = some (w', es)) : Live w'.client := by
  cases move_of_step hs with
  | arrive => exact hl
  | client a c es hnot hs =>
    have heq : a = .callbackReturn := by simpa [readSteps] using ha
    subst heq
    cases Client.move_of_step hs with
    | callbackReturn => exact ⟨hl.ready, hl.running, hl.unstopped⟩
  | readComplete response rest c es hp hs =>
    cases Client.move_of_step hs with
    | readFailed ec response hc hr he => exact absurd rfl he
    | deliver => exact ⟨hl.ready, hl.running, hl.unstopped⟩
    | unsolicited => exact ⟨hl.ready, hl.running, hl.unstopped⟩

/- Every step of the read loop leaves it less to do. -/
theorem work_step {w w' : Wire HandlerType β} {es : List (Event HandlerType)}
    {rest rest' : List (HttpResponse × List β)} {a : WireAction HandlerType} (ha : a ∈ readSteps)
    (hs : step reader w a = some (w', es)) (hrest : rest'.length + taken a = rest.length) :
    work w' rest' < work w rest := by
  unfold work
  cases move_of_step hs with
  | arrive chunk arriving hw =>
    simp only [taken, hw, List.length_cons] at *
    omega
  | client a c es hnot hs =>
    have heq : a = .callbackReturn := by simpa [readSteps] using ha
    subst heq
    cases Client.move_of_step hs with
    | callbackReturn hl hi =>
      simp only [taken, hi, Bool.toNat_true, Bool.toNat_false] at *
      omega
  | readComplete response left c es hp hs =>
    have hle := Bool.toNat_le c.inCallback
    simp only [taken] at *
    omega

theorem Reads.can_settle {w : Wire HandlerType β} {log : List (Event HandlerType)}
    {rest : List (HttpResponse × List β)} (h : Reads v w log rest) (hl : Live w.client) :
    ∃ bs w' log', Run (Wire.step reader) w bs w' log' ∧ (∀ b ∈ bs, b ∈ readSteps) ∧
      Settled reader w' := by
  generalize hn : work w rest = n
  induction n using Nat.strong_induction_on generalizing w log rest with
  | _ n ih =>
    by_cases hstuck : ∀ a ∈ readSteps, Wire.step reader w a = none
    · exact ⟨[], w, [], .nil, (fun b hb => by cases hb), hl, hstuck⟩
    · push Not at hstuck
      obtain ⟨a, ha, hsome⟩ := hstuck
      obtain ⟨⟨w₁, es⟩, hs⟩ := Option.ne_none_iff_exists'.mp hsome
      obtain ⟨rest₁, h₁, htaken⟩ := h.step hs
      have hless := work_step ha hs htaken
      obtain ⟨bs, w', log', hrun, hbs, hset⟩ :=
        ih (work w₁ rest₁) (hn ▸ hless) h₁ (live_step ha hl hs) rfl
      refine ⟨a :: bs, w', es ++ log', (Run.single hs).append hrun, ?_, hset⟩
      exact List.forall_mem_cons.mpr ⟨ha, hbs⟩

/-! ### Every way of cutting the stream -/

structure Processes (v : ResponseStream reader) (w : Wire HandlerType β)
    (log : List (Event HandlerType)) : Prop where
  inOrder : Client.responsesRead log <+: v.responses
  settled : Settled reader w → Client.responsesRead log = v.responses
  -- and nothing but the end of the session keeps the read loop from getting there
  settles : Live w.client → ∃ bs w' log', Run (step reader) w bs w' log' ∧
    (∀ b ∈ bs, b ∈ readSteps) ∧ Settled reader w' ∧
    Client.responsesRead (log ++ log') = v.responses

theorem Reads.all {w : Wire HandlerType β} {log : List (Event HandlerType)}
    {rest : List (HttpResponse × List β)} (h : Reads v w log rest) (hs : Settled reader w) :
    Client.responsesRead log = v.responses := by
  rw [h.processed, h.settled hs]
  exact (List.append_nil _).symm

theorem processes_of_run [Inhabited HandlerType] {mHost : Str} {chunks : List (List β)}
    (hchunks : chunks.flatten = v.bytes) {as : List (WireAction HandlerType)}
    {w : Wire HandlerType β} {log : List (Event HandlerType)}
    (h : Run (step reader) (initial mHost chunks) as w log) : Processes v w log := by
  obtain ⟨rest, hreads⟩ := reads_of_run hchunks h
  refine ⟨⟨rest.map Prod.fst, hreads.processed.symm⟩, hreads.all, ?_⟩
  intro hl
  obtain ⟨bs, w', log', hrun, hbs, hset⟩ := hreads.can_settle hl
  obtain ⟨rest', hreads'⟩ := reads_of_run hchunks (h.append hrun)
  exact ⟨bs, w', log', hrun, hbs, hset, hreads'.all hset⟩

/-- However the stream is cut into chunks, the read loop processes its complete messages
in order, each as it was sent, and stops at the incomplete one. -/
theorem chunks_irrelevant [Inhabited HandlerType] (reader : MessageReader β)
    (v : ResponseStream reader) (mHost : Str) (chunks chunks' : List (List β))
    (hchunks : chunks.flatten = v.bytes) (hchunks' : chunks'.flatten = v.bytes)
    (as as' : List (WireAction HandlerType)) (w w' : Wire HandlerType β)
    (log log' : List (Event HandlerType))
    (h : Run (step reader) (initial mHost chunks) as w log)
    (h' : Run (step reader) (initial mHost chunks') as' w' log') :
    Processes v w log ∧ Processes v w' log' ∧
      (Settled reader w → Settled reader w' →
        Client.responsesRead log = Client.responsesRead log') := by
  have hfirst := processes_of_run hchunks h
  have hsecond := processes_of_run hchunks' h'
  exact ⟨hfirst, hsecond, fun hs hs' => (hfirst.settled hs).trans (hsecond.settled hs').symm⟩

end Wire

/-! ### Responses with a length -/

def numeral (w : Str) : ℕ := w.foldl (fun n c => 10 * n + (c.toNat - '0'.toNat)) 0

def sizedResponse : Parser Char HttpResponse :=
  andThen (literal "HTTP/1.1 ".toList) fun _ =>
  andThen (word Char.isDigit) fun status =>
  andThen (literal "\r\nContent-Length: ".toList) fun _ =>
  andThen (word Char.isDigit) fun length =>
  andThen (literal "\r\n\r\n".toList) fun _ =>
  andThen (exactly (numeral length)) fun body => ret ⟨numeral status, body⟩

def sizedReader : MessageReader Char where
  parse := sizedResponse
  stable :=
    (stable_literal _).andThen fun _ => (stable_word _).andThen fun _ =>
    (stable_literal _).andThen fun _ => (stable_word _).andThen fun _ =>
    (stable_literal _).andThen fun _ => (stable_exactly _).andThen fun _ => stable_ret _

/- Two responses, the second with the body of a status line, and half a third one. -/
def twoAndAHalf : ResponseStream sizedReader where
  messages :=
    [(⟨200, "ok".toList⟩, "HTTP/1.1 200\r\nContent-Length: 2\r\n\r\nok".toList),
      (⟨404, "HTTP/1.1 ".toList⟩, "HTTP/1.1 404\r\nContent-Length: 9\r\n\r\nHTTP/1.1 ".toList)]
  tail := "HTTP/1.1 200\r\nContent-Length: 5\r\n\r\nti".toList
  complete := by decide +kernel
  incomplete := by decide +kernel

namespace Wire

/- What shows that the read loop has settled. -/
def settledView (r : Wire ℕ Char × List (Event ℕ)) : Bool :=
  r.1.client.mSessionReady && r.1.client.loop == .running && !r.1.client.stopped &&
    readSteps.all fun a => (step sizedReader r.1 a).isNone

theorem settled_of_view {w : Wire ℕ Char} {log : List (Event ℕ)}
    (h : settledView (w, log) = true) : Settled sizedReader w := by
  simp only [settledView, Bool.and_eq_true, beq_iff_eq, Bool.not_eq_true', List.all_eq_true,
    Option.isNone_iff_eq_none] at h
  obtain ⟨⟨⟨hn, hl⟩, hst⟩, hwait⟩ := h
  exact ⟨⟨hn, hl, hst⟩, hwait⟩

/- In one chunk; and cut within the first status line and within the second body. -/
theorem chunks_irrelevant_two :
    ∃ (w w' : Wire ℕ Char) (log log' : List (Event ℕ)), w.arriving = [] ∧ w'.arriving = [] ∧
      Client.responsesRead log = Client.responsesRead log' ∧
      Client.responsesRead log = [⟨200, "ok".toList⟩, ⟨404, "HTTP/1.1 ".toList⟩] := by
  let cut : List (List Char) :=
    [twoAndAHalf.bytes.take 5, (twoAndAHalf.bytes.drop 5).take 74, twoAndAHalf.bytes.drop 79]
  let opening : List (WireAction ℕ) := Client.startUp.map .client
  let whole : List (WireAction ℕ) := opening ++ [.arrive, .readComplete, .readComplete]
  let pieces : List (WireAction ℕ) :=
    opening ++ [.arrive, .arrive, .readComplete, .arrive, .readComplete]
  obtain ⟨w, log, hr, hw⟩ := run_of_observed (step sizedReader)
    (initial "h".toList [twoAndAHalf.bytes]) whole (fun r => (settledView r, r.1.arriving))
    (show _ = some (true, []) by decide +kernel)
  obtain ⟨w', log', hr', hw'⟩ := run_of_observed (step sizedReader) (initial "h".toList cut) pieces
    (fun r => (settledView r, r.1.arriving)) (show _ = some (true, []) by decide +kernel)
  obtain ⟨hset, harr⟩ := Prod.mk.inj hw
  obtain ⟨hset', harr'⟩ := Prod.mk.inj hw'
  obtain ⟨hfirst, -, hsame⟩ := chunks_irrelevant sizedReader twoAndAHalf "h".toList
    [twoAndAHalf.bytes] cut (by decide +kernel) (by decide +kernel) whole pieces
    w w' log log' hr hr'
  exact ⟨w, w', log, log', harr, harr', hsame (settled_of_view hset) (settled_of_view hset'),
    hfirst.settled (settled_of_view hset)⟩

end Wire
end RestClient
