import RestClient.FlatBuffer
import RestClient.ParsedReads
import RestClient.PutRest

/-!
# Reading into the flat buffer (read.hpp, read_size.hpp)

The read loop over the buffer itself. A read parses what the buffer holds, consumes what has
been parsed, and prepares room for the socket, which hands over no more than there is room for;
the rest of what has come stays for the next call. A read whose buffer is full fails. But for
that it is the reading of the bytes, in chunks that depend on the room.
-/

namespace RestClient
open Machine ResponseParser
variable {HandlerType : Type}

namespace FlatBuffer

/- `beast::read_size`. -/
def readSize (b : FlatBuffer) (maxSize : ℕ) : ℕ :=
  min (max 512 (b.capacity - b.size)) (min maxSize (b.max_ - b.size))

end FlatBuffer

/- The read has the buffer; `overflow` is `error::buffer_overflow`. -/
inductive ReadAt where
  | idle
  | waiting (p : BasicParser)
  | delivered (m : Response)
  | failed (e : HttpError)
  | overflow (p : BasicParser)
  deriving DecidableEq

def ReadAt.threw : ReadAt → Bool
  | .failed .lengthError => true
  | _ => false

/-- The client, its buffer and its read, and what will arrive before the stream ends. -/
structure BufferedConnection (HandlerType : Type) where
  client : Client HandlerType
  mBuffer : FlatBuffer
  read : ReadAt
  arriving : List Str

namespace BufferedConnection
open FlatBuffer

def initial [Inhabited HandlerType] (limit : ℕ) (mHost : Str) (pieces : List Str) :
    BufferedConnection HandlerType := ⟨Client.initial mHost, .empty limit, .idle, pieces⟩

/- From the label `do_read` of `read_some_op`. -/
def doRead (fresh : Memory) (p : BasicParser) (b : FlatBuffer) : ReadAt × FlatBuffer :=
  let size := b.readSize 65536
  if size = 0 then (.overflow p, b)
  else
    match b.prepare fresh size with
    | none => (.overflow p, b)
    | some b' => (.waiting p, b')

/- Nobody looks at what a read that has failed leaves in the buffer. -/
def parse (fresh : Memory) (p : BasicParser) (b : FlatBuffer) : ReadAt × FlatBuffer :=
  match readBuffer p b.data with
  | .delivered m rest => (.delivered m, b.consume (b.size - rest.length))
  | .waiting p' rest => doRead fresh p' (b.consume (b.size - rest.length))
  | .failed e => (.failed e, b)

def begin (fresh : Memory) (c : Client HandlerType) (read : ReadAt) (b : FlatBuffer) :
    ReadAt × FlatBuffer :=
  match read with
  | .idle =>
    if 0 < c.reads then parse fresh (ResponseParser.initial c.mHttpResult.message) b
    else (.idle, b)
  | r => (r, b)

/- A read that waits, and one that has failed, may complete with an error; one that has thrown
does not complete. -/
def mayFail : ReadAt → Bool
  | .failed .lengthError => false
  | .waiting _ | .failed _ | .overflow _ => true
  | _ => false

/- The read completes, and the client goes on with another one. -/
def complete (fresh : Memory) (s : BufferedConnection HandlerType) (ec : ErrorCode)
    (response : HttpResponse) : Option (BufferedConnection HandlerType × List (Event HandlerType)) :=
  (Client.step s.client (.onRead ec response)).map fun r =>
    let (read, b) := begin fresh r.1 .idle s.mBuffer
    (⟨r.1, b, read, s.arriving⟩, r.2)

/- What a call of the socket leaves of what has come. -/
def unread (chunk : Str) (n : ℕ) (rest : List Str) : List Str :=
  if chunk.drop n = [] then rest else chunk.drop n :: rest

def step : Step (BufferedConnection HandlerType) (Memory × ConnectionAction HandlerType)
    (Event HandlerType)
  | s, (fresh, .client a) =>
    if Connection.permits s.read.threw a then
      (Client.step s.client a).map fun r =>
        let (read, b) := begin fresh r.1 s.read s.mBuffer
        (⟨r.1, b, read, s.arriving⟩, r.2)
    else none
  | s, (fresh, .arrive) =>
    match s.read, s.arriving with
    | .waiting p, chunk :: rest =>
      if s.client.canHandle then
        let room := s.mBuffer.last_ - s.mBuffer.out_
        (s.mBuffer.write (chunk.take room)).map fun b =>
          let (read, b) := parse fresh p (b.commit (chunk.take room).length)
          (⟨s.client, b, read, unread chunk room rest⟩, [])
      else none
    | _, _ => none
  | s, (_, .endOfStream) =>
    match s.read, s.arriving with
    | .waiting p, [] =>
      if s.client.canHandle then
        let b := s.mBuffer.commit 0
        match readEof (.waiting p b.data) with
        | .delivered m _ => some (⟨s.client, b, .delivered m, []⟩, [])
        | .failed e => some (⟨s.client, b, .failed e, []⟩, [])
        | .waiting .. => none
      else none
    | _, _ => none
  | s, (fresh, .readComplete) =>
    match s.read with
    | .delivered m => complete fresh s 0 m.passed
    | _ => none
  | s, (fresh, .readFails ec response) =>
    if ec = 0 then none
    else if mayFail s.read then complete fresh s ec response
    else none

inductive Move (s : BufferedConnection HandlerType) (fresh : Memory) :
    ConnectionAction HandlerType → BufferedConnection HandlerType → List (Event HandlerType) → Prop
  | client (a c es) (ha : Connection.permits s.read.threw a = true)
      (hs : Client.step s.client a = some (c, es)) :
      Move s fresh (.client a) ⟨c, (begin fresh c s.read s.mBuffer).2,
        (begin fresh c s.read s.mBuffer).1, s.arriving⟩ es
  | arrive (p chunk rest b room) (hr : s.read = .waiting p) (hw : s.arriving = chunk :: rest)
      (hc : s.client.canHandle) (hroom : room = s.mBuffer.last_ - s.mBuffer.out_)
      (hb : s.mBuffer.write (chunk.take room) = some b) :
      Move s fresh .arrive ⟨s.client, (parse fresh p (b.commit (chunk.take room).length)).2,
        (parse fresh p (b.commit (chunk.take room).length)).1, unread chunk room rest⟩ []
  | endOfStream (p r) (hr : s.read = .waiting p) (hw : s.arriving = [])
      (hc : s.client.canHandle)
      (he : (∃ m b, readEof (.waiting p (s.mBuffer.commit 0).data) = .delivered m b ∧
          r = .delivered m) ∨
        ∃ e, readEof (.waiting p (s.mBuffer.commit 0).data) = .failed e ∧ r = .failed e) :
      Move s fresh .endOfStream ⟨s.client, s.mBuffer.commit 0, r, []⟩ []
  | readComplete (m c es) (hr : s.read = .delivered m)
      (hs : Client.step s.client (.onRead 0 m.passed) = some (c, es)) :
      Move s fresh .readComplete ⟨c, (begin fresh c .idle s.mBuffer).2,
        (begin fresh c .idle s.mBuffer).1, s.arriving⟩ es
  | readFails (ec response c es) (hr : mayFail s.read = true) (he : ec ≠ 0)
      (hs : Client.step s.client (.onRead ec response) = some (c, es)) :
      Move s fresh (.readFails ec response) ⟨c, (begin fresh c .idle s.mBuffer).2,
        (begin fresh c .idle s.mBuffer).1, s.arriving⟩ es

theorem move_of_step {s s' : BufferedConnection HandlerType} {fresh : Memory}
    {a : ConnectionAction HandlerType} {es : List (Event HandlerType)}
    (h : step s (fresh, a) = some (s', es)) : Move s fresh a s' es := by
  cases a with
  | client a =>
    obtain ⟨ha, h⟩ := Option.ite_none_right_eq_some.mp h
    obtain ⟨⟨c, es'⟩, hs, he⟩ := Option.map_eq_some_iff.mp h
    cases he
    exact .client a c _ ha hs
  | arrive =>
    simp only [step] at h
    split at h
    · rename_i p chunk rest hr hw
      obtain ⟨hc, h⟩ := Option.ite_none_right_eq_some.mp h
      obtain ⟨b, hb, he⟩ := Option.map_eq_some_iff.mp h
      cases he
      exact .arrive p chunk rest b _ hr hw hc rfl hb
    · cases h
  | endOfStream =>
    simp only [step] at h
    split at h
    · rename_i p hr hw
      obtain ⟨hc, h⟩ := Option.ite_none_right_eq_some.mp h
      split at h
      · rename_i m b heof
        cases h
        exact .endOfStream p _ hr hw hc (.inl ⟨m, b, heof, rfl⟩)
      · rename_i e heof
        cases h
        exact .endOfStream p _ hr hw hc (.inr ⟨e, heof, rfl⟩)
      · cases h
    · cases h
  | readComplete =>
    simp only [step] at h
    split at h
    · rename_i m hr
      obtain ⟨⟨c, es'⟩, hs, he⟩ := Option.map_eq_some_iff.mp h
      cases he
      exact .readComplete m c _ hr hs
    · cases h
  | readFails ec response =>
    obtain ⟨he, h⟩ := Option.ite_none_left_eq_some.mp h
    obtain ⟨hr, h⟩ := Option.ite_none_right_eq_some.mp h
    obtain ⟨⟨c, es'⟩, hs, he'⟩ := Option.map_eq_some_iff.mp h
    cases he'
    exact .readFails ec response c _ hr he hs

/-! ### The buffer of a read -/

/- The maximum is that of the allocator. -/
def Sized (limit : ℕ) (b : FlatBuffer) : Prop := b.max_ = limit ∧ b.allocMax = limit

theorem Sized.consume {limit : ℕ} {b : FlatBuffer} (h : Sized limit b) (n : ℕ) :
    Sized limit (b.consume n) ∧ (b.consume n).capacity = b.capacity := by
  unfold FlatBuffer.consume
  split <;> exact ⟨h, rfl⟩

theorem consume_rest {b : FlatBuffer} {rest : Str} (h : rest <:+ b.data) :
    (b.consume (b.size - rest.length)).data = rest := by
  obtain ⟨used, hused⟩ := h
  have hlen := congrArg List.length hused
  rw [List.length_append, length_data] at hlen
  rw [consume_data, ← hused]
  exact List.drop_left' (by omega)

/- Either there is room for a byte, or the buffer is full. It grows when what it holds leaves
room for less than 512 bytes. -/
theorem doRead_spec {limit : ℕ} {b : FlatBuffer} (h : Sized limit b) (fresh : Memory)
    (p : BasicParser) :
    ∃ b', ((doRead fresh p b = (.waiting p, b') ∧ 0 < b'.last_ - b'.out_) ∨
        (doRead fresh p b = (.overflow p, b') ∧ limit ≤ b'.size)) ∧
      b'.data = b.data ∧ Sized limit b' ∧
        b'.capacity ≤ max b.capacity (max (2 * b.size) (b.size + 512)) := by
  obtain ⟨hmax, halloc⟩ := h
  have hsize : b.readSize 65536 ≤ max 512 (b.capacity - b.size) ∧
      b.readSize 65536 ≤ b.max_ - b.size := by
    unfold FlatBuffer.readSize
    omega
  unfold doRead
  dsimp only
  by_cases hzero : b.readSize 65536 = 0
  · rw [if_pos hzero]
    refine ⟨b, .inr ⟨rfl, ?_⟩, rfl, ⟨hmax, halloc⟩, Nat.le_max_left _ _⟩
    unfold FlatBuffer.readSize at hzero
    omega
  rw [if_neg hzero]
  obtain ⟨-, hlong⟩ | ⟨b', hb', -, hdata, hlast, hmax', halloc', hcap⟩ :=
    prepare_spec fresh (b.readSize 65536) (by rw [hmax, halloc])
  · omega
  · rw [hb']
    refine ⟨b', .inl ⟨rfl, by omega⟩, hdata, ⟨hmax'.trans hmax, halloc'.trans halloc⟩, ?_⟩
    omega

/-- The read over the buffer is the reading `r` of its bytes. -/
inductive Mirrors (limit : ℕ) (b : FlatBuffer) : ReadAt → ResponseParser.Reading → Prop
  | waiting (p) (hready : Ready p b.data) (hskip : SkipFits p) (hroom : 0 < b.last_ - b.out_) :
      Mirrors limit b (.waiting p) (.waiting p b.data)
  | overflow (p) (hfull : limit ≤ b.size) : Mirrors limit b (.overflow p) (.waiting p b.data)
  | delivered (m) : Mirrors limit b (.delivered m) (.delivered m b.data)
  | failed (e) : Mirrors limit b (.failed e) (.failed e)

theorem Mirrors.threw {limit : ℕ} {b : FlatBuffer} {read : ReadAt} {r : ResponseParser.Reading}
    (h : Mirrors limit b read r) : (ReadState.busy r).threw = read.threw := by
  cases h with
  | failed e => cases e <;> rfl
  | _ => rfl

/- What may fail has something to leave. -/
theorem Mirrors.leftover {limit : ℕ} {b : FlatBuffer} {read : ReadAt}
    {r : ResponseParser.Reading} (h : Mirrors limit b read r) (hfail : mayFail read = true) :
    ∃ bytes, Connection.leftover r = some bytes := by
  cases h with
  | waiting p => exact ⟨_, rfl⟩
  | overflow p => exact ⟨_, rfl⟩
  | delivered m => cases hfail
  | failed e => cases e <;> first | exact ⟨_, rfl⟩ | cases hfail

/-- The bytes of a line of a chunk, or of the trailers, that a read waits for the end of. -/
def chunkLineHeld : ReadAt → FlatBuffer → ℕ
  | .waiting p, b | .overflow p, b => if p.state = .chunkHeader then b.size else 0
  | _, _ => 0

theorem parse_mirrors {limit : ℕ} {b : FlatBuffer} {p : BasicParser} (hsized : Sized limit b)
    (hready : Ready p b.data) (hskip : SkipFits p) (fresh : Memory) :
    Mirrors limit (parse fresh p b).2 (parse fresh p b).1 (readBuffer p b.data) ∧
      Sized limit (parse fresh p b).2 ∧ (parse fresh p b).2.size ≤ b.size ∧
      (parse fresh p b).2.capacity ≤ max b.capacity
        (2 * max headerLimit (chunkLineHeld (parse fresh p b).1 (parse fresh p b).2)) := by
  obtain ⟨hdelivered, hwaiting⟩ := readBuffer_leaves hready hskip
  have hsound := readBuffer_sound hready
  unfold parse
  cases hr : readBuffer p b.data with
  | failed e => exact ⟨.failed e, hsized, Nat.le_refl _, Nat.le_max_left _ _⟩
  | delivered m rest =>
    have hdata := consume_rest (hdelivered m rest hr)
    obtain ⟨hsized', hcap⟩ := hsized.consume (b.size - rest.length)
    have hm : Mirrors limit (b.consume (b.size - rest.length)) (.delivered m)
        (.delivered m (b.consume (b.size - rest.length)).data) := .delivered m
    rw [hdata] at hm
    refine ⟨hm, hsized', ?_, by rw [hcap]; exact Nat.le_max_left _ _⟩
    rw [← length_data, hdata, ← length_data]
    exact (hdelivered m rest hr).length_le
  | waiting p' rest =>
    rw [hr] at hsound
    obtain ⟨hsuffix, hskip', hshort⟩ := hwaiting p' rest hr
    have hdata := consume_rest hsuffix
    obtain ⟨hsized', hcap⟩ := hsized.consume (b.size - rest.length)
    have hlen : (b.consume (b.size - rest.length)).size = rest.length := by
      rw [← length_data, hdata]
    obtain ⟨b', hread, hdata', hsized'', hgrown⟩ := doRead_spec hsized' fresh p'
    have hsize' := size_of_data hdata'
    have hless : b'.size ≤ b.size := by
      rw [hsize', hlen, ← length_data]
      exact hsuffix.length_le
    rw [hdata] at hdata'
    rw [hlen] at hgrown hsize'
    have hbound : b'.capacity ≤ max b.capacity
        (2 * max headerLimit (if p'.state = .chunkHeader then b'.size else 0)) := by
      rw [hcap] at hgrown
      rw [hsize']
      unfold headerLimit at *
      split <;> rcases hshort with hshort | hshort <;> first | contradiction | omega
    rcases hread with ⟨hread, hroom⟩ | ⟨hread, hfull⟩ <;> dsimp only <;> rw [hread]
    · have hm : Mirrors limit b' (.waiting p') (.waiting p' b'.data) :=
        .waiting p' (by rw [hdata']; exact hsound.1) hskip' hroom
      rw [hdata'] at hm
      exact ⟨hm, hsized'', hless, hbound⟩
    · have hm : Mirrors limit b' (.overflow p') (.waiting p' b'.data) := .overflow p' hfull
      rw [hdata'] at hm
      exact ⟨hm, hsized'', hless, hbound⟩

/- What a call of the socket hands over. -/
theorem Mirrors.received {limit : ℕ} {b b' : FlatBuffer} {bytes : Str}
    (hfits : bytes.length ≤ b.last_ - b.out_) (hsized : Sized limit b)
    (hb : b.write bytes = some b') :
    (b'.commit bytes.length).data = b.data ++ bytes ∧ Sized limit (b'.commit bytes.length) ∧
      (b'.commit bytes.length).capacity = b.capacity := by
  obtain ⟨b₁, hb₁, hdata, -, -, hwritten, hmax, halloc, hcap⟩ := write_spec hfits
  cases hb.symm.trans hb₁
  refine ⟨?_, ⟨hmax.trans hsized.1, halloc.trans hsized.2⟩, hcap⟩
  obtain ⟨rest, hrest⟩ := hwritten
  rw [commit_data, hdata, ← hrest, List.take_left]

/-! ### The machine over the bytes -/

/-- What the connection over the bytes has for its read. -/
inductive ReadsInto (limit : ℕ) (s : BufferedConnection HandlerType)
    (log : List (Event HandlerType)) : ReadState → Prop
  | idle (b) (hr : s.read = .idle) (hn : s.client.reads = 0)
      (hb : b = s.mBuffer.data ∨ Client.readFailures log ≠ []) : ReadsInto limit s log (.idle b)
  | busy (r) (hm : Mirrors limit s.mBuffer s.read r) : ReadsInto limit s log (.busy r)

structure Tracks (limit : ℕ) (s : BufferedConnection HandlerType)
    (log : List (Event HandlerType)) (r : ReadState) : Prop where
  sized : Sized limit s.mBuffer
  read : ReadsInto limit s log r
  phase : (Client.Reading s.client log ∧ Client.Serial s.client) ∨ Client.LoopLeft s.client

/- Both have thrown, or neither has. -/
theorem ReadsInto.threw {limit : ℕ} {s : BufferedConnection HandlerType}
    {log : List (Event HandlerType)} {r : ReadState} (h : ReadsInto limit s log r) :
    r.threw = s.read.threw := by
  cases h with
  | idle b hr =>
    rw [hr]
    rfl
  | busy r hm => exact hm.threw

/- A read that is not begun stays as it is. -/
theorem Mirrors.begin {limit : ℕ} {b : FlatBuffer} {read : ReadAt}
    {r : ResponseParser.Reading} (h : Mirrors limit b read r) (fresh : Memory)
    (c : Client HandlerType) : begin fresh c read b = (read, b) := by
  cases h <;> rfl

theorem begin_tracks {limit : ℕ} {c : Client HandlerType} {b : FlatBuffer} {bytes : Str}
    {log : List (Event HandlerType)} (hsized : Sized limit b)
    (hbytes : bytes = b.data ∨ Client.readFailures log ≠ [])
    (hrun : 0 < c.reads → c.loop = .running)
    (hphase : (Client.Reading c log ∧ Client.Serial c) ∨ Client.LoopLeft c) (fresh : Memory)
    (arriving : List Str) :
    Tracks limit ⟨c, (begin fresh c .idle b).2, (begin fresh c .idle b).1, arriving⟩ log
        (Connection.begin c (.idle bytes)) ∧
      (begin fresh c .idle b).2.size ≤ b.size ∧
      (begin fresh c .idle b).2.capacity ≤ max b.capacity (2 * max headerLimit
        (chunkLineHeld (begin fresh c .idle b).1 (begin fresh c .idle b).2)) := by
  unfold begin Connection.begin
  dsimp only
  by_cases hn : 0 < c.reads
  · rw [if_pos hn, if_pos hn]
    have hsame : bytes = b.data := by
      rcases hphase with ⟨hreading, -⟩ | hleft
      · exact hbytes.resolve_right fun hne => hne (hreading.of_reads hn).2.2.2.1
      · exact absurd (hrun hn) hleft.begun.1
    rw [hsame]
    obtain ⟨hm, hsized', hgrown⟩ :=
      parse_mirrors hsized (initial_ready c.mHttpResult.message b.data)
        (skipFits_zero rfl) fresh
    exact ⟨⟨hsized', .busy _ hm, hphase⟩, hgrown⟩
  · rw [if_neg hn, if_neg hn]
    refine ⟨⟨hsized, .idle bytes rfl (Nat.eq_zero_of_not_pos hn) hbytes, hphase⟩, ?_⟩
    exact ⟨Nat.le_refl _, Nat.le_max_left _ _⟩

theorem unread_flatten (chunk : Str) (n : ℕ) (rest : List Str) :
    chunk.take n ++ (unread chunk n rest).flatten = chunk ++ rest.flatten := by
  unfold unread
  split
  · rename_i hnil
    rw [← List.take_append_drop n chunk, hnil, List.append_nil, List.take_take, Nat.min_self]
  · rw [List.flatten_cons, ← List.append_assoc, List.take_append_drop]

/-- A step is one over the bytes: the chunk that arrives there is what the room lets in, and
what comes behind it does not matter as long as something does when something is left. -/
structure Stepped (limit : ℕ) (s s' : BufferedConnection HandlerType) (a : ConnectionAction HandlerType)
    (log es : List (Event HandlerType)) (r : ReadState) : Prop where
  same : ∃ r' taken, Tracks limit s' (log ++ es) r' ∧
    s.arriving.flatten = taken.flatten ++ s'.arriving.flatten ∧
    (s.arriving = [] → taken = [] ∧ s'.arriving = []) ∧
    ∀ later, (s'.arriving = [] → later = []) →
      Connection.step ⟨s.client, r, taken ++ later⟩ a = some (⟨s'.client, r', later⟩, es)
  kept : s'.mBuffer.size + s'.arriving.flatten.length ≤
    s.mBuffer.size + s.arriving.flatten.length
  grown : s'.mBuffer.capacity ≤ max s.mBuffer.capacity
    (2 * max headerLimit (chunkLineHeld s'.read s'.mBuffer))

theorem Tracks.client_step {limit : ℕ} {s : BufferedConnection HandlerType}
    {c : Client HandlerType} {log es : List (Event HandlerType)} {r : ReadState}
    {a : Action HandlerType} (h : Tracks limit s log r) (fresh : Memory)
    (ha : Connection.permits s.read.threw a = true) (hs : Client.step s.client a = some (c, es)) :
    Stepped limit s ⟨c, (begin fresh c s.read s.mBuffer).2, (begin fresh c s.read s.mBuffer).1,
      s.arriving⟩ (.client a) log es r := by
  obtain ⟨hmono, hrun⟩ := Client.reads_of_step (Connection.isRead_of_permits ha) hs
  have hphase := Wire.phase_step h.phase hs
  rw [← h.read.threw] at ha
  have hstep : ∀ later, Connection.step ⟨s.client, r, later⟩ (.client a) =
      some (⟨c, Connection.begin c r, later⟩, es) := by
    intro later
    simp only [Connection.step, ha, hs, if_true, Option.map_some]
  have hread := h.read
  cases hread with
  | idle b hr hn hb =>
    obtain ⟨htracks, hsize, hcap⟩ := begin_tracks h.sized
      (hb.imp_right fun hne => Connection.readFailures_ne hne es) (fun hpos => hrun (hn ▸ hpos))
      hphase fresh s.arriving
    rw [hr]
    exact ⟨⟨_, [], htracks, rfl, fun hnil => ⟨rfl, hnil⟩, fun later _ => hstep later⟩,
      Nat.add_le_add_right hsize _, hcap⟩
  | busy r hm =>
    rw [hm.begin fresh c]
    exact ⟨⟨.busy r, [], ⟨h.sized, .busy r hm, hphase⟩, rfl, fun hnil => ⟨rfl, hnil⟩,
      fun later _ => hstep later⟩, Nat.le_refl _, Nat.le_max_left _ _⟩

theorem Tracks.arrive_step {limit : ℕ} {s : BufferedConnection HandlerType} {b : FlatBuffer}
    {log : List (Event HandlerType)} {r : ReadState} {p : BasicParser} {chunk : Str}
    {rest : List Str} {room : ℕ} (h : Tracks limit s log r) (fresh : Memory)
    (hr : s.read = .waiting p) (hw : s.arriving = chunk :: rest) (hc : s.client.canHandle)
    (hroom : room = s.mBuffer.last_ - s.mBuffer.out_)
    (hb : s.mBuffer.write (chunk.take room) = some b) :
    Stepped limit s ⟨s.client, (parse fresh p (b.commit (chunk.take room).length)).2,
      (parse fresh p (b.commit (chunk.take room).length)).1, unread chunk room rest⟩ .arrive log
      [] r := by
  have hfits : (chunk.take room).length ≤ s.mBuffer.last_ - s.mBuffer.out_ := by
    rw [List.length_take, hroom]
    exact Nat.min_le_left _ _
  obtain ⟨hdata, hsized, hcap⟩ := Mirrors.received hfits h.sized hb
  have hread := h.read
  cases hread with
  | idle b hr' => cases hr.symm.trans hr'
  | busy r hm =>
    rw [hr] at hm
    cases hm with
    | waiting _ hready hskip _ =>
      obtain ⟨hm', hsized', hless, hgrown⟩ := parse_mirrors hsized
        (by rw [hdata]; exact hready.append (chunk.take room)) hskip fresh
      have hflat := unread_flatten chunk room rest
      rw [hdata] at hm'
      rw [hcap] at hgrown
      refine ⟨⟨.busy _, [chunk.take room], ⟨hsized', .busy _ hm', ?_⟩, ?_, ?_, ?_⟩, ?_, hgrown⟩
      · rw [List.append_nil]
        exact h.phase
      · rw [hw, List.flatten_cons, List.flatten_singleton, hflat]
      · intro hnil
        cases hw.symm.trans hnil
      · intro later _
        simp only [Connection.step, List.singleton_append, if_pos hc]
      · have hlen := congrArg List.length hflat
        have hsize : (b.commit (chunk.take room).length).size =
            s.mBuffer.size + (chunk.take room).length := by
          rw [← length_data, hdata, List.length_append, length_data]
        rw [List.length_append, List.length_append] at hlen
        rw [hw, List.flatten_cons, List.length_append]
        dsimp only
        omega

/- The end of the stream consumes nothing. -/
theorem readEof_left {p : BasicParser} {b b' : Str} {m : Response}
    (h : readEof (.waiting p b) = .delivered m b') : b' = b := by
  simp only [readEof] at h
  split at h
  · cases h
  · split at h <;> cases h
    rfl

theorem Tracks.endOfStream_step {limit : ℕ} {s : BufferedConnection HandlerType}
    {log : List (Event HandlerType)} {r : ReadState} {p : BasicParser} {read : ReadAt}
    (h : Tracks limit s log r) (hr : s.read = .waiting p) (hw : s.arriving = [])
    (hc : s.client.canHandle)
    (he : (∃ m b, readEof (.waiting p (s.mBuffer.commit 0).data) = .delivered m b ∧
        read = .delivered m) ∨
      ∃ e, readEof (.waiting p (s.mBuffer.commit 0).data) = .failed e ∧ read = .failed e) :
    Stepped limit s ⟨s.client, s.mBuffer.commit 0, read, []⟩ .endOfStream log [] r := by
  have hdata : (s.mBuffer.commit 0).data = s.mBuffer.data := by
    rw [commit_data, List.take_zero, List.append_nil]
  have hphase : (Client.Reading s.client (log ++ []) ∧ Client.Serial s.client) ∨
      Client.LoopLeft s.client := by
    rw [List.append_nil]
    exact h.phase
  have hread := h.read
  cases hread with
  | idle b hr' => cases hr.symm.trans hr'
  | busy r hm =>
    rw [hr] at hm
    cases hm with
    | waiting _ hready hskip _ =>
      have hstep : Connection.step ⟨s.client, .busy (.waiting p s.mBuffer.data), []⟩ .endOfStream =
          some (⟨s.client, .busy (readEof (.waiting p s.mBuffer.data)), []⟩, []) := by
        simp only [Connection.step, if_pos hc]
      have hm' : Mirrors limit (s.mBuffer.commit 0) read
          (readEof (.waiting p s.mBuffer.data)) := by
        rw [hdata] at he
        rcases he with ⟨m, b, heof, rfl⟩ | ⟨e, heof, rfl⟩
        · rw [heof, readEof_left heof, ← hdata]
          exact .delivered m
        · rw [heof]
          exact .failed e
      refine ⟨⟨_, [], ⟨⟨h.sized.1, h.sized.2⟩, .busy _ hm', hphase⟩, ?_, fun _ => ⟨rfl, rfl⟩, ?_⟩,
        ?_, Nat.le_max_left _ _⟩
      · rw [hw]
        rfl
      · intro later hnil
        rw [hnil rfl]
        exact hstep
      · rw [hw, size_of_data hdata]

/- The read completes, as the one over the bytes does, and the client goes on. -/
theorem Tracks.completed {limit : ℕ} {s : BufferedConnection HandlerType}
    {c : Client HandlerType} {log es : List (Event HandlerType)} {r : ReadState}
    {ec : ErrorCode} {response : HttpResponse} {a : ConnectionAction HandlerType}
    (h : Tracks limit s log r) (fresh : Memory) (bytes : Str)
    (hs : Client.step s.client (.onRead ec response) = some (c, es))
    (hbytes : bytes = s.mBuffer.data ∨ Client.readFailures (log ++ es) ≠ [])
    (hstep : ∀ later, Connection.step ⟨s.client, r, later⟩ a =
      some (⟨c, Connection.begin c (.idle bytes), later⟩, es)) :
    Stepped limit s ⟨c, (begin fresh c .idle s.mBuffer).2, (begin fresh c .idle s.mBuffer).1,
      s.arriving⟩ a log es r := by
  obtain ⟨htracks, hsize, hcap⟩ := begin_tracks h.sized hbytes
    (fun _ => Client.running_of_onRead hs) (Wire.phase_step h.phase hs) fresh s.arriving
  exact ⟨⟨_, [], htracks, rfl, fun hnil => ⟨rfl, hnil⟩, fun later _ => hstep later⟩,
    Nat.add_le_add_right hsize _, hcap⟩

theorem Tracks.step {limit : ℕ} {s s' : BufferedConnection HandlerType}
    {log es : List (Event HandlerType)} {r : ReadState} {fresh : Memory}
    {a : ConnectionAction HandlerType} (h : Tracks limit s log r)
    (hs : step s (fresh, a) = some (s', es)) : Stepped limit s s' a log es r := by
  cases move_of_step hs with
  | client a c es ha hs => exact h.client_step fresh ha hs
  | arrive p chunk rest b room hr hw hc hroom hb => exact h.arrive_step fresh hr hw hc hroom hb
  | endOfStream p read hr hw hc he => exact h.endOfStream_step hr hw hc he
  | readComplete m c es hr hs =>
    have hread := h.read
    cases hread with
    | idle b hr' => cases hr.symm.trans hr'
    | busy r hm =>
      rw [hr] at hm
      cases hm
      refine h.completed fresh _ hs (.inl rfl) fun later => ?_
      simp only [Connection.step, hs, Option.map_some]
  | readFails ec response c es hr he hs =>
    have hfailed : Client.readFailures (log ++ es) ≠ [] := by
      rw [Client.readFailures_append]
      exact List.append_ne_nil_of_right_ne_nil _ (Client.readFailures_of_failed he hs)
    have hread := h.read
    cases hread with
    | idle b hr' =>
      rw [hr'] at hr
      cases hr
    | busy r hm =>
      obtain ⟨bytes, hleft⟩ := hm.leftover hr
      refine h.completed fresh bytes hs (.inr hfailed) fun later => ?_
      simp only [Connection.step, if_neg he, hleft, hs, Option.bind_some, Option.map_some]

/- The chunks that the room has let in come first, then what is still to arrive. -/
theorem tracks_of_run [Inhabited HandlerType] {limit : ℕ} {mHost : Str} {pieces : List Str}
    {as : List (Memory × ConnectionAction HandlerType)} {s : BufferedConnection HandlerType}
    {log : List (Event HandlerType)} (h : Run step (initial limit mHost pieces) as s log) :
    ∃ r chunks, Tracks limit s log r ∧ pieces.flatten = chunks.flatten ++ s.arriving.flatten ∧
      ∀ later, (s.arriving = [] → later = []) →
        Run Connection.step (.initial mHost (chunks ++ later)) (as.map Prod.snd)
          ⟨s.client, r, later⟩ log := by
  induction h with
  | nil =>
    refine ⟨.idle [], [], ⟨⟨rfl, rfl⟩, .idle [] rfl rfl (.inl rfl), .inl ⟨?_, ?_⟩⟩, rfl,
      fun later _ => .nil⟩
    · exact .before rfl rfl rfl List.not_mem_nil rfl
    · exact Client.initial_serial mHost
  | @snoc as s log a s' es _ hs ih =>
    obtain ⟨r, chunks, htracks, hbytes, hrun⟩ := ih
    obtain ⟨⟨r', taken, htracks', hflat, hnil, hstep⟩, -, -⟩ := htracks.step hs
    refine ⟨r', chunks ++ taken, htracks', ?_, fun later hlater => ?_⟩
    · rw [hbytes, hflat, List.flatten_append, List.append_assoc]
    · have hrun' := hrun (taken ++ later) fun h₀ => by
        obtain ⟨htaken, hleft⟩ := hnil h₀
        rw [htaken, hlater hleft]
        rfl
      rw [List.map_append, List.append_assoc]
      exact hrun'.snoc (hstep later hlater)

/-- Every run over the flat buffer is one over the bytes with the same actions and events, for
some way of cutting what arrives into chunks: moving the bytes within the buffer, into new
memory, and the room the socket is given change nothing else. Until a read has failed the bytes
in the buffer are the same too. -/
theorem buffered_is_plain [Inhabited HandlerType] (limit : ℕ) (mHost : Str) (pieces : List Str)
    (as : List (Memory × ConnectionAction HandlerType)) (s : BufferedConnection HandlerType)
    (log : List (Event HandlerType)) (h : Run step (initial limit mHost pieces) as s log) :
    ∃ chunks r, chunks.flatten = pieces.flatten ∧
      Run Connection.step (.initial mHost chunks) (as.map Prod.snd)
        ⟨s.client, r, s.arriving⟩ log ∧ ReadsInto limit s log r := by
  obtain ⟨r, chunks, htracks, hbytes, hrun⟩ := tracks_of_run h
  refine ⟨chunks ++ s.arriving, r, ?_, hrun s.arriving id, htracks.read⟩
  rw [hbytes, List.flatten_append]

/- The buffer has room for 40 bytes: the socket is called twice for the 57 of the response. -/
theorem buffered_is_plain_twice : ∃ (s : BufferedConnection ℕ) (log : List (Event ℕ)),
    s.read = .waiting (ResponseParser.initial default) ∧ Client.responsesRead log = [⟨204, []⟩] ∧
      ∃ chunks r, chunks.flatten =
          ["HTTP/1.1 204 No Content\r\n".toList ++ "Set-Cookie: a=b; Path=/\r\n\r\n".toList].flatten ∧
        Run Connection.step (.initial "h".toList chunks)
          (Client.startUp.map .client ++ [.arrive, .arrive, .readComplete])
          ⟨s.client, r, s.arriving⟩ log ∧ ReadsInto 40 s log r := by
  let fresh : Memory := fun n => Vector.replicate n '?'
  let actions : List (ConnectionAction ℕ) :=
    Client.startUp.map .client ++ [.arrive, .arrive, .readComplete]
  obtain ⟨s, log, hr, hview⟩ := run_of_observed step
    (initial 40 "h".toList
      ["HTTP/1.1 204 No Content\r\n".toList ++ "Set-Cookie: a=b; Path=/\r\n\r\n".toList])
    (actions.map fun a => (fresh, a)) (fun r => (r.1.read, Client.responsesRead r.2))
    (show _ = some (.waiting (ResponseParser.initial default), [⟨204, []⟩]) by decide +kernel)
  obtain ⟨hread, hlog⟩ := Prod.mk.inj hview
  exact ⟨s, log, hread, hlog, buffered_is_plain 40 "h".toList _ _ s log hr⟩

end BufferedConnection
end RestClient
