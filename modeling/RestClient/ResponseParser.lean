import Mathlib.Algebra.Group.Nat.Defs
import RestClient.HttpGrammar
import RestClient.Lib.Scanning

/-!
# The vendored response parser

`parser<false, string_body>` over `basic_parser<false>` (http/impl/basic_parser.ipp,
http/detail/basic_parser.ipp) with its defaults, as `http::async_read` runs it. A character
stands for one byte. The pieces of the grammar are scanners, `need_more` is their `more`;
`put` runs them on what the buffer holds and keeps in `skip` how far it has searched.
-/

namespace RestClient.ResponseParser
open Scanning

/- The errors a read of a response can end with. `lengthError` is none of them: it is an
exception of `insert`, with which the read does not complete. -/
inductive HttpError where
  | endOfStream
  | partialMessage
  | headerLimit
  | bodyLimit
  | badLineEnding
  | badVersion
  | badStatus
  | badReason
  | badField
  | badValue
  | badContentLength
  | badTransferEncoding
  | badChunk
  | badChunkExtension
  | lengthError
  deriving DecidableEq, Repr

/- `state`. -/
inductive State where
  | nothingYet
  | startLine
  | fields
  | body0
  | body
  | bodyToEof0
  | bodyToEof
  | chunkHeader0
  | chunkHeader
  | chunkBody
  | complete
  deriving DecidableEq, Repr

/-- `http::response<string_body>`. -/
structure Response where
  status : ℕ
  version : ℕ
  reason : Str
  fields : List (Str × Str)
  body : Str
  deriving DecidableEq, Repr

/- A default-constructed response. -/
instance : Inhabited Response := ⟨⟨200, 11, [], [], []⟩⟩

/-- What the parser has made of the bytes it has consumed. -/
structure Parsed where
  state : State
  contentLength : Bool
  chunked : Bool
  expectCRLF : Bool
  len : ℕ
  len0 : ℕ
  bodyLimit : ℕ
  m : Response
  deriving DecidableEq, Repr

/-- The parser: `skip` and `finalChunk` tell how far the bytes not yet consumed have been
searched. -/
structure BasicParser extends Parsed where
  skip : ℕ
  finalChunk : Bool
  deriving DecidableEq, Repr

abbrev Scan := Scanner HttpError Char

def headerLimit : ℕ := 8192

/- `default_body_limit` of a response. -/
def defaultBodyLimit : ℕ := 8 * 1024 * 1024

def maxObsFold : ℕ := 4096

def uint64Max : ℕ := 2 ^ 64 - 1

/-- The parser of a read into the message `m`: only the header of `m` is cleared. -/
def initial (m : Response) : BasicParser where
  state := .nothingYet
  contentLength := false
  chunked := false
  expectCRLF := false
  len := 0
  len0 := 0
  bodyLimit := defaultBodyLimit
  m := { m with fields := [] }
  skip := 0
  finalChunk := false

/-! ### Lines -/

def digitValue (c : Char) : ℕ := c.toNat - '0'.toNat

def parseVersion : Scan ℕ :=
  andThen (exactly 8) fun w =>
  match w with
  | ['H', 'T', 'T', 'P', '/', major, '.', minor] =>
    if major.isDigit && minor.isDigit then ret (10 * digitValue major + digitValue minor)
    else fail .badVersion
  | _ => fail .badVersion

def parseStatus : Scan ℕ :=
  andThen (exactly 4) fun w =>
  match w with
  | [a, b, c, ' '] =>
    if a.isDigit && b.isDigit && c.isDigit then
      ret (100 * digitValue a + 10 * digitValue b + digitValue c)
    else fail .badStatus
  | _ => fail .badStatus

/- `invalid` is the caller's error for a control character. -/
def parseTokenToEol (invalid : HttpError) : Scan Str :=
  andThen (span isFieldChar) fun text =>
  andThen item fun c =>
  andThen (require (c == '\r') invalid) fun _ =>
  andThen item fun d =>
  andThen (require (d == '\n') .badLineEnding) fun _ => ret text

/- `parse_start_line` of a response. -/
def parseStartLine (σ : Parsed) : Scan Parsed :=
  andThen parseVersion fun version =>
  andThen (require (10 ≤ version && version ≤ 11) .badVersion) fun _ =>
  andThen item fun c =>
  andThen (require (c == ' ') .badVersion) fun _ =>
  andThen parseStatus fun status =>
  andThen (parseTokenToEol .badReason) fun reason =>
  ret { σ with
    state := .fields
    m := { σ.m with status := status, version := version, reason := reason } }

/- A line of a value, without the blanks at its ends, and whether the next line continues it. -/
def foldedLine : Scan (Str × Bool) :=
  andThen (span isBlank) fun _ =>
  andThen (parseTokenToEol .badValue) fun text =>
  andThen peek fun c =>
  if isBlank c then andThen item fun _ => ret (trimBack text, true)
  else ret (trimBack text, false)

/- `try_append` on the buffer of folded lines. -/
def tryAppend (buf s : Str) : Scan Str :=
  if s.length ≤ maxObsFold - buf.length then ret (buf ++ s) else fail .headerLimit

/- The two loops of `parse_field`: the first runs until a line is not empty. -/
def valueLine (buf : Str) : Scan (Str ⊕ Str) :=
  andThen foldedLine fun (text, fold) =>
  if buf = [] then
    if fold then andThen (tryAppend [] text) fun buf' => ret (.inl buf') else ret (.inr text)
  else
    andThen (if text = [] then ret buf else tryAppend buf (' ' :: text)) fun buf' =>
    ret (if fold then .inl buf' else .inr buf')

def parseField : Scan (Str × Str) :=
  andThen (span isTokenChar) fun name =>
  andThen item fun c =>
  andThen (require (c == ':' && !name.isEmpty) .badField) fun _ =>
  andThen (repeated valueLine []) fun value => ret (name, value)

/-! ### Fields -/

def iequals (a b : Str) : Bool := a.map Char.toLower == b.map Char.toLower

/- The elements of `token_list` and `opt_token_list`, and whether the list has no error. -/
def tokenList : ℕ → Bool → Str → List Str × Bool
  | 0, _, _ => ([], true)
  | n + 1, needComma, s =>
    match s.dropWhile isBlank with
    | [] => ([], true)
    | c :: rest =>
      if isTokenChar c then
        if needComma then ([], false)
        else
          let later := tokenList n true (rest.dropWhile isTokenChar)
          ((c :: rest.takeWhile isTokenChar) :: later.1, later.2)
      else if c = ',' then tokenList n false rest
      else ([], false)

def tokens (s : Str) : List Str × Bool := tokenList (s.length + 1) false s

def decFrom (v : ℕ) : Str → Option ℕ
  | [] => some v
  | c :: s =>
    if !c.isDigit || uint64Max / 10 < v then none
    else if uint64Max - v * 10 < digitValue c then none
    else decFrom (v * 10 + digitValue c) s

def parseDec (s : Str) : Option ℕ := if s = [] then none else decFrom 0 s

/- All the lengths are the same, and the same as one known before. -/
def agreed : Option ℕ → List Str → Option ℕ
  | existing, [] => existing
  | existing, tok :: ts =>
    match parseDec tok with
    | none => none
    | some v => if existing.all (· == v) then agreed (some v) ts else none

def contentLengthOf (existing : Option ℕ) (value : Str) : Option ℕ :=
  let ts := tokens value
  if ts.1 = [] || !ts.2 then none
  else if ts.1.length ≠ 1 + value.count ',' then none
  else agreed existing ts.1

/- "chunked" is the last of the codings, and only the last. -/
def endsChunked (value : Str) : Bool :=
  ((tokens value).1.dropWhile fun s => !iequals "chunked".toList s).length == 1

/- `do_field`; the connection semantics it notes are not used. -/
def doField (σ : Parsed) (name value : Str) : Except HttpError Parsed :=
  if iequals name "connection".toList || iequals name "proxy-connection".toList then
    if (tokens value).2 then .ok σ else .error .badValue
  else if iequals name "content-length".toList then
    if σ.chunked then .error .badContentLength
    else
      match contentLengthOf (if σ.contentLength then some σ.len0 else none) value with
      | none => .error .badContentLength
      | some v => .ok { σ with len := v, len0 := v, contentLength := true }
  else if iequals name "transfer-encoding".toList then
    if σ.chunked then .error .badTransferEncoding
    else if σ.contentLength then .error .badTransferEncoding
    else if endsChunked value then .ok { σ with len := 0, chunked := true }
    else .ok σ
  else .ok σ

/- A field goes behind the last one of its name. -/
def addField (f : Str × Str) : List (Str × Str) → List (Str × Str)
  | [] => [f]
  | g :: gs =>
    if iequals g.1 f.1 && !gs.any (iequals ·.1 f.1) then g :: f :: gs else g :: addField f gs

/- `insert` of the fields, which throws for what a 16-bit offset cannot hold. -/
def onField (σ : Parsed) (f : Str × Str) : Except HttpError Parsed :=
  if 2 ^ 16 - 1 < f.1.length + 2 || 2 ^ 16 - 1 < f.2.length + 2 then .error .lengthError
  else .ok { σ with m := { σ.m with fields := addField (f.1, trim f.2) σ.m.fields } }

/- A pass of the loop of `parse_fields`: a field, or the end of the header. -/
def fieldStep (σ : Parsed) : Scan (Parsed ⊕ Parsed) :=
  atLeast 2 <| andThen peek fun c =>
  if c = '\r' then
    andThen item fun _ => andThen item fun d =>
    andThen (require (d == '\n') .badLineEnding) fun _ => ret (.inr σ)
  else
    andThen parseField fun f =>
    andThen (lift (doField σ f.1 f.2)) fun σ' =>
    andThen (lift (onField σ' f)) fun σ'' => ret (.inl σ'')

/- A response to a request other than HEAD. -/
def finishHeader (σ : Parsed) : Except HttpError Parsed :=
  if σ.m.status / 100 = 1 || σ.m.status = 204 || σ.m.status = 304 then
    .ok { σ with state := .complete }
  else if σ.contentLength then
    if 0 < σ.len then
      if σ.bodyLimit < σ.len then .error .bodyLimit else .ok { σ with state := .body0 }
    else .ok { σ with state := .complete }
  else if σ.chunked then .ok { σ with state := .chunkHeader0 }
  else .ok { σ with state := .bodyToEof0 }

/-! ### Chunks -/

def unhex (c : Char) : Option ℕ :=
  if c.isDigit then some (digitValue c)
  else if 'a' ≤ c && c ≤ 'f' then some (c.toNat - 'a'.toNat + 10)
  else if 'A' ≤ c && c ≤ 'F' then some (c.toNat - 'A'.toNat + 10)
  else none

def hexFrom (v : ℕ) : Str → Option (ℕ × Str)
  | [] => some (v, [])
  | c :: s =>
    match unhex c with
    | none => some (v, c :: s)
    | some d =>
      if uint64Max / 16 < v then none
      else if uint64Max - v * 16 < d then none
      else hexFrom (v * 16 + d) s

/- The value and what follows the digits. -/
def parseHex : Str → Option (ℕ × Str)
  | [] => none
  | c :: s => if (unhex c).isNone then none else hexFrom 0 (c :: s)

def parseCrlf : Str → Option Str
  | '\r' :: '\n' :: rest => some rest
  | _ => none

/- The line and what follows its end. -/
def findEol : Scan Str :=
  andThen (span (· != '\r')) fun line =>
  andThen item fun _ => andThen item fun d =>
  andThen (require (d == '\n') .badLineEnding) fun _ => ret line

/-- Where the first CRLFCRLF ends. -/
def findEom : Str → Option ℕ
  | a :: b :: c :: d :: rest =>
    if d ≠ '\n' then
      if d = '\r' then (findEom (b :: c :: d :: rest)).map (· + 1)
      else (findEom rest).map (· + 4)
    else if c ≠ '\r' then (findEom rest).map (· + 4)
    else if b ≠ '\n' then (findEom (c :: d :: rest)).map (· + 2)
    else if a ≠ '\r' then (findEom (c :: d :: rest)).map (· + 2)
    else some 4
  | _ => none

def quotedString : Scan Unit :=
  repeated (fun _ : Unit => andThen item fun c =>
    if c = '"' then ret (.inr ())
    else if c = '\\' then andThen item fun _ => ret (.inl ())
    else ret (.inl ())) ()

def extensionValue : Scan Unit :=
  andThen (span isBlank) fun _ => andThen peek fun c =>
  if c = '"' then andThen item fun _ => quotedString
  else
    andThen (require (isTokenChar c) .badChunkExtension) fun _ =>
    andThen (span isTokenChar) fun _ => ret ()

/- From the label `loop`, or behind a semicolon (the label `semi`). -/
def extension : Bool → Scan (Bool ⊕ Unit)
  | false => andThen peek fun c =>
    if isBlank c || c == ';' then
      andThen (span isBlank) fun _ => andThen item fun c =>
      andThen (require (c == ';') .badChunkExtension) fun _ => ret (.inl true)
    else ret (.inr ())
  | true => andThen (span isBlank) fun _ => andThen peek fun c =>
    andThen (require (isTokenChar c) .badChunkExtension) fun _ =>
    andThen (span isTokenChar) fun _ => andThen (span isBlank) fun bws => andThen peek fun c =>
    if c = ';' then andThen item fun _ => ret (.inl true)
    else if c = '=' then andThen item fun _ => andThen extensionValue fun _ => ret (.inl false)
    else if bws = [] then ret (.inr ())
    else fail .badChunkExtension

def parseChunkExtensions : Scan Unit := repeated extension false

/-! ### `put` -/

/- What became of the parser and the buffer. -/
inductive Put where
  | next (p : BasicParser) (rest : Str)
  | needMore (p : BasicParser) (rest : Str)
  | failed (e : HttpError)
  deriving DecidableEq, Repr

/- `maybe_need_more`: the value of `skip` when the end of the header is not there yet. -/
def maybeNeedMore (skip : ℕ) (b : Str) : Except HttpError (Option ℕ) :=
  let n := min b.length headerLimit
  if skip = 0 then .ok none
  else if n < skip + 4 then .ok (some skip)
  else
    match findEom ((b.take n).drop skip) with
    | some _ => .ok none
    | none => if headerLimit < n - 3 + 4 then .error .headerLimit else .ok (some (n - 3))

/- After a scanner of the header has needed more of `n` bytes, those in `rest` unconsumed. -/
def headerNeedsMore (p : BasicParser) (n : ℕ) (rest : Str) : Put :=
  if headerLimit ≤ n then .failed .headerLimit
  else .needMore { p with skip := if 3 ≤ rest.length then rest.length - 3 else p.skip } rest

def putFields (p : BasicParser) (b : Str) : Put :=
  match maybeNeedMore p.skip b with
  | .error e => .failed e
  | .ok (some skip) => .needMore { p with skip := skip } b
  | .ok none =>
    match advance fieldStep p.toParsed (b.take headerLimit) with
    | .failed e => .failed e
    | .waiting σ rest =>
      headerNeedsMore { p with toParsed := σ, skip := 0 } b.length (rest ++ b.drop headerLimit)
    | .ended σ rest =>
      match finishHeader σ with
      | .error e => .failed e
      | .ok σ => .next { p with toParsed := σ, skip := 0 } (rest ++ b.drop headerLimit)

def putStartLine (p : BasicParser) (b : Str) : Put :=
  match maybeNeedMore p.skip b with
  | .error e => .failed e
  | .ok (some skip) => .needMore { p with skip := skip } b
  | .ok none =>
    match parseStartLine p.toParsed (b.take headerLimit) with
    | .failed e => .failed e
    | .more => headerNeedsMore { p with skip := 0 } b.length b
    | .done σ rest =>
      if rest ++ b.drop headerLimit = [] then .needMore { p with toParsed := σ, skip := 0 } []
      else putFields { p with toParsed := σ, skip := 0 } (rest ++ b.drop headerLimit)

def Parsed.addBody (σ : Parsed) (data : Str) : Parsed :=
  { σ with len := σ.len - data.length, m := { σ.m with body := σ.m.body ++ data } }

def putBody (p : BasicParser) (b : Str) : Put :=
  let σ := p.toParsed.addBody (b.take p.len)
  .next { p with toParsed := if σ.len = 0 then { σ with state := .complete } else σ }
    (b.drop p.len)

/- `len` is not used: there is no Content-Length. -/
def Parsed.toEof (σ : Parsed) (data : Str) : Parsed :=
  { σ with
    bodyLimit := σ.bodyLimit - data.length
    m := { σ.m with body := σ.m.body ++ data } }

def putBodyToEof (p : BasicParser) (b : Str) : Put :=
  if p.bodyLimit < b.length then .failed .bodyLimit
  else .next { p with toParsed := p.toParsed.toEof b } []

def putChunkBody (p : BasicParser) (b : Str) : Put :=
  let σ := p.toParsed.addBody (b.take p.len)
  .next { p with toParsed := if σ.len = 0 then { σ with state := .chunkHeader } else σ }
    (b.drop p.len)

/- The last chunk and its trailers: `ext` follows the digits and `eol` the line. -/
def putFinalChunk (p : BasicParser) (b ext eol : Str) : Put :=
  match findEom (b.drop p.skip) with
  | none => .needMore { p with skip := b.length - 3 } b
  | some k =>
    let eom := b.drop (p.skip + k)
    match parseChunkExtensions ext with
    | .failed e => .failed e
    | .more => .needMore p b
    | .done _ rest =>
      if rest.length ≠ eol.length + 2 then .failed .badChunkExtension
      else
        match advance fieldStep p.toParsed (eol.take (eol.length - eom.length)) with
        | .failed e => .failed e
        | .waiting σ _ => .needMore { p with toParsed := σ } b
        | .ended σ _ => .next { p with toParsed := { σ with state := .complete } } eom

def putChunkHeader (p : BasicParser) (b : Str) : Put :=
  if p.finalChunk then
    -- what was found before is found again
    let digits := if p.expectCRLF then (parseCrlf b).getD b else b
    let ext := ((parseHex digits).map Prod.snd).getD digits
    match findEol ext with
    | .done _ eol => putFinalChunk p b ext eol
    | _ => .failed .badLineEnding
  else if b.length < p.skip + 2 then .needMore p b
  else
    match (if p.expectCRLF then parseCrlf b else some b) with
    | none => .failed .badChunk
    | some digits =>
      match findEol (b.drop p.skip) with
      | .failed e => .failed e
      | .more => .needMore { p with skip := b.length - 1 } b
      | .done _ eol =>
        let skip := b.length - eol.length - 2
        match parseHex digits with
        | none => .failed .badChunk
        | some (size, ext) =>
          if size = 0 then putFinalChunk { p with skip := skip, finalChunk := true } b ext eol
          else if p.bodyLimit < size then .failed .bodyLimit
          else
            let bodyLimit := p.bodyLimit - size
            match parseChunkExtensions ext with
            | .failed e => .failed e
            | .more => .needMore { p with bodyLimit := bodyLimit, skip := skip } b
            | .done _ rest =>
              if rest.length ≠ eol.length + 2 then .failed .badChunkExtension
              else
                .next { p with
                  bodyLimit := bodyLimit
                  len := size
                  skip := 2
                  expectCRLF := true
                  state := .chunkBody } eol

/- The `switch` of `put`. -/
def dispatch (p : BasicParser) (b : Str) : Put :=
  match p.state with
  | .nothingYet => if b = [] then .needMore p b else putStartLine { p with state := .startLine } b
  | .startLine => putStartLine p b
  | .fields => putFields p b
  | .body0 | .body => putBody { p with state := .body } b
  | .bodyToEof0 | .bodyToEof => putBodyToEof { p with state := .bodyToEof } b
  | .chunkHeader0 | .chunkHeader => putChunkHeader { p with state := .chunkHeader } b
  | .chunkBody => putChunkBody p b
  | .complete => .next p b

/- The loop of `put`, eager: each turn consumes. -/
def putLoop : ℕ → BasicParser → Str → Put
  | 0, p, b => .next p b
  | n + 1, p, b =>
    match dispatch p b with
    | .next p' rest =>
      if rest ≠ [] ∧ p'.state ≠ .complete then putLoop n p' rest else .next p' rest
    | r => r

def put (p : BasicParser) (b : Str) : Put := putLoop (b.length + 1) p b

def putEof (p : BasicParser) : Except HttpError BasicParser :=
  if p.state = .startLine || p.state = .fields then .error .partialMessage
  else if p.contentLength || p.chunked then
    if p.state ≠ .complete then .error .partialMessage else .ok p
  else .ok { p with state := .complete }

/-! ### `http::async_read` -/

/-- A read has ended, or waits for the socket with what is left in the buffer. -/
inductive Reading where
  | delivered (m : Response) (rest : Str)
  | failed (e : HttpError)
  | waiting (p : BasicParser) (b : Str)
  deriving DecidableEq, Repr

/- `read_op` over `read_some_op`: the buffer is parsed unless it is empty, and the socket is
read while the message is not complete. -/
def readBuffer (p : BasicParser) (b : Str) : Reading :=
  if b = [] then .waiting p b
  else
    match put p b with
    | .next p' rest => if p'.state = .complete then .delivered p'.m rest else .waiting p' rest
    | .needMore p' rest => .waiting p' rest
    | .failed e => .failed e

/- Further bytes; the chunks that the read has not come to stay unread. -/
def receive : Reading → List Str → Reading × List Str
  | .waiting p b, chunk :: chunks => receive (readBuffer p (b ++ chunk)) chunks
  | r, chunks => (r, chunks)

/- The stream ends while the read waits. -/
def readEof : Reading → Reading
  | .waiting p b =>
    if p.state = .nothingYet then .failed .endOfStream
    else
      match putEof p with
      | .ok p' => .delivered p'.m b
      | .error e => .failed e
  | r => r

/-- A read into `m` that begins with the bytes `b` in the buffer. -/
def asyncRead (m : Response) (b : Str) (chunks : List Str) : Reading × List Str :=
  receive (readBuffer (initial m) b) chunks

/-- The same read on a stream that ends behind the chunks. -/
def asyncReadToEnd (m : Response) (b : Str) (chunks : List Str) : Reading × List Str :=
  let (r, unread) := asyncRead m b chunks
  (readEof r, unread)

end RestClient.ResponseParser
