import RestClient.ResponseParser

/-!
# The grammar of a response

What a response is, apart from how its bytes arrive: a scanner that runs from the state the
parser has reached to the end of the message. It has no `skip` and no limit on the header.
It is incremental, so bytes that arrive later change nothing.
-/

namespace RestClient.ResponseParser
open Scanning

/- The fields, and the empty line. -/
def scanFields (σ : Parsed) : Scan Parsed := repeated fieldStep σ

/- The number in the line of a chunk. Extensions may follow it, and only the end of the line
follows them. -/
def sizeLine (line : Str) : Except HttpError ℕ :=
  match parseHex (line ++ crlf) with
  | none => .error .badChunk
  | some (size, ext) =>
    match parseChunkExtensions ext with
    | .failed e => .error e
    | .more => .error .badChunkExtension
    | .done _ rest => if rest.length = 2 then .ok size else .error .badChunkExtension

/- What is left of the data of a chunk. -/
def chunkData (σ : Parsed) : Scan Parsed :=
  if σ.state = .chunkBody then
    andThen (exactly σ.len) fun data => ret { σ.addBody data with state := .chunkHeader }
  else ret σ

/- The end of the chunk before, and the line of the next. -/
def chunkLine (σ : Parsed) : Scan ℕ :=
  andThen (if σ.expectCRLF then
    andThen item fun c => andThen (require (c == '\r') .badChunk) fun _ =>
    andThen item fun d => require (d == '\n') .badChunk else ret ()) fun _ =>
  andThen findEol fun line => lift (sizeLine line)

/- Data follow the line of a chunk, or the trailers. -/
def afterLine (σ : Parsed) (size : ℕ) : Scan (Parsed ⊕ Parsed) :=
  if size = 0 then andThen (scanFields σ) fun σ => ret (.inr { σ with state := .complete })
  else if σ.bodyLimit < size then fail .bodyLimit
  else
    ret (.inl { σ with
      bodyLimit := σ.bodyLimit - size
      len := size
      expectCRLF := true
      state := .chunkBody })

def chunkStep (σ : Parsed) : Scan (Parsed ⊕ Parsed) :=
  andThen (chunkData σ) fun σ => andThen (chunkLine σ) (afterLine σ)

def scanChunks (σ : Parsed) : Scan Parsed := repeated chunkStep σ

/- A body that ends with the stream is never complete before. -/
def scanToEof (σ : Parsed) : Scan Parsed := fun b =>
  if σ.bodyLimit < b.length then .failed .bodyLimit else .more

def scanBody (σ : Parsed) : Scan Parsed :=
  match σ.state with
  | .body0 | .body =>
    andThen (exactly σ.len) fun data => ret { σ.addBody data with state := .complete }
  | .bodyToEof0 | .bodyToEof => scanToEof σ
  | .chunkHeader0 | .chunkHeader => scanChunks { σ with state := .chunkHeader }
  | .chunkBody => scanChunks σ
  | _ => ret σ

/-- The bytes of the header that are left. -/
def scanHeader (σ : Parsed) : Scan Parsed :=
  match σ.state with
  | .nothingYet | .startLine => andThen (parseStartLine { σ with state := .startLine }) scanFields
  | .fields => scanFields σ
  | _ => ret σ

def afterHeader (σ : Parsed) : Scan Parsed := andThen (lift (finishHeader σ)) scanBody

/- The message from the state the parser is in. -/
def scanMessage (σ : Parsed) : Scan Parsed :=
  match σ.state with
  | .nothingYet | .startLine | .fields => andThen (scanHeader σ) afterHeader
  | _ => scanBody σ

/-- A whole response, read into `m`. -/
def scanResponse (m : Response) : Scan Response :=
  andThen (scanMessage (initial m).toParsed) fun σ => ret σ.m

def inHeader : State → Bool
  | .nothingYet | .startLine | .fields => true
  | _ => false

/- The states of a body that ends with the stream. -/
def endsWithStream : State → Bool
  | .bodyToEof0 | .bodyToEof => true
  | _ => false

/- The bytes are what is left of such a body. -/
def bodyToEnd (σ : Parsed) (b : Str) : Option Response :=
  if endsWithStream σ.state && decide (b.length ≤ σ.bodyLimit) then some (σ.toEof b).m else none

/-- The response that the end of the stream completes, from the state the parser is in: its
header tells neither of a length nor of chunks, and all that follows is its body. -/
def scanToEnd (σ : Parsed) (b : Str) : Option Response :=
  if inHeader σ.state then
    match scanHeader σ b with
    | .done σ' rest =>
      match finishHeader σ' with
      | .ok σ'' => bodyToEnd σ'' rest
      | .error _ => none
    | _ => none
  else bodyToEnd σ b

/-! ### Lines -/

theorem incremental_parseVersion : Incremental parseVersion := by
  refine .andThen (.exactly 8) fun w => ?_
  split
  · exact .ite (.ret _) (.fail _)
  · exact .fail _

theorem incremental_parseStatus : Incremental parseStatus := by
  refine .andThen (.exactly 4) fun w => ?_
  split
  · exact .ite (.ret _) (.fail _)
  · exact .fail _

theorem incremental_parseTokenToEol (invalid : HttpError) :
    Incremental (parseTokenToEol invalid) :=
  .andThen (.span _) fun _ => .andThen .item fun _ => .andThen (.require ..) fun _ =>
  .andThen .item fun _ => .andThen (.require ..) fun _ => .ret _

theorem takes_parseTokenToEol (invalid : HttpError) : Takes 2 (parseTokenToEol invalid) :=
  .andThen (m := 0) (n := 2) (Incremental.span _).takes fun _ => .andThen (m := 1) .item fun _ =>
  .andThen (m := 0) (n := 1) (Incremental.require ..).takes fun _ =>
  .andThen (m := 1) (n := 0) .item fun _ =>
  (Incremental.andThen (.require ..) fun _ => .ret _).takes

theorem incremental_parseStartLine (σ : Parsed) : Incremental (parseStartLine σ) :=
  .andThen incremental_parseVersion fun _ => .andThen (.require ..) fun _ =>
  .andThen .item fun _ => .andThen (.require ..) fun _ =>
  .andThen incremental_parseStatus fun _ => .andThen (incremental_parseTokenToEol _) fun _ => .ret _

theorem incremental_foldedLine : Incremental foldedLine :=
  .andThen (.span _) fun _ => .andThen (incremental_parseTokenToEol _) fun _ =>
  .andThen .peek fun _ => .ite (.andThen .item fun _ => .ret _) (.ret _)

theorem takes_foldedLine : Takes 2 foldedLine :=
  .andThen (m := 0) (n := 2) (Incremental.span _).takes fun _ =>
  .andThen (m := 2) (n := 0) (takes_parseTokenToEol _) fun _ =>
  (Incremental.andThen .peek fun _ => .ite (.andThen .item fun _ => .ret _) (.ret _)).takes

theorem incremental_tryAppend (buf s : Str) : Incremental (tryAppend buf s) :=
  .ite (.ret _) (.fail _)

/- What is done with a line of a value. -/
theorem incremental_valueLine (buf : Str) : Incremental (valueLine buf) :=
  .andThen incremental_foldedLine fun _ =>
    .ite (.ite (.andThen (incremental_tryAppend ..) fun _ => .ret _) (.ret _))
      (.andThen (.ite (.ret _) (incremental_tryAppend ..)) fun _ => .ret _)

theorem takes_valueLine (buf : Str) : Takes 2 (valueLine buf) :=
  .andThen (m := 2) (n := 0) takes_foldedLine fun _ => Incremental.takes <|
    .ite (.ite (.andThen (incremental_tryAppend ..) fun _ => .ret _) (.ret _))
      (.andThen (.ite (.ret _) (incremental_tryAppend ..)) fun _ => .ret _)

theorem consumes_of_takes {σ α : Type} {body : σ → Scan (σ ⊕ α)} {n : ℕ} (hn : 0 < n)
    (h : ∀ s, Takes n (body s)) : Consumes body := by
  intro s b s' rest hb
  have hle := h s b _ rest hb
  omega

theorem consumes_valueLine : Consumes valueLine := consumes_of_takes Nat.two_pos takes_valueLine

theorem incremental_parseField : Incremental parseField :=
  .andThen (.span _) fun _ => .andThen .item fun _ => .andThen (.require ..) fun _ =>
  .andThen (.repeated consumes_valueLine incremental_valueLine _) fun _ => .ret _

/- A field is not shorter than its colon and the end of its line. -/
theorem takes_repeated_valueLine (buf : Str) : Takes 2 (repeated valueLine buf) := by
  intro b value rest h
  rcases repeated_eq_done consumes_valueLine h with hstop | ⟨buf', mid, hagain, hmid⟩
  · exact takes_valueLine buf b _ rest hstop
  · have h1 := takes_valueLine buf b _ mid hagain
    have h2 := (Incremental.repeated consumes_valueLine incremental_valueLine buf').takes
      mid value rest hmid
    omega

theorem takes_parseField : Takes 2 parseField :=
  .andThen (m := 0) (n := 2) (Incremental.span _).takes fun _ =>
  .andThen (m := 0) (n := 2) Incremental.item.takes fun _ =>
  .andThen (m := 0) (n := 2) (Incremental.require ..).takes fun _ =>
  .andThen (m := 2) (n := 0) (takes_repeated_valueLine _) fun _ => (Incremental.ret _).takes

/-! ### Fields -/

/- `fieldStep` before it waits for two bytes. -/
def fieldOrEnd (σ : Parsed) : Scan (Parsed ⊕ Parsed) :=
  andThen peek fun c =>
  if c = '\r' then
    andThen item fun _ => andThen item fun d =>
    andThen (require (d == '\n') .badLineEnding) fun _ => ret (.inr σ)
  else
    andThen parseField fun f =>
    andThen (lift (doField σ f.1 f.2)) fun σ' =>
    andThen (lift (onField σ' f)) fun σ'' => ret (.inl σ'')

theorem incremental_fieldOrEnd (σ : Parsed) : Incremental (fieldOrEnd σ) :=
  .andThen .peek fun _ => .ite
    (.andThen .item fun _ => .andThen .item fun _ => .andThen (.require ..) fun _ => .ret _)
    (.andThen incremental_parseField fun _ => .andThen (.lift _) fun _ =>
      .andThen (.lift _) fun _ => .ret _)

theorem takes_fieldOrEnd (σ : Parsed) : Takes 2 (fieldOrEnd σ) :=
  .andThen (m := 0) (n := 2) Incremental.peek.takes fun _ => .ite
    (.andThen (m := 1) (n := 1) .item fun _ => .andThen (m := 1) (n := 0) .item fun _ =>
      (Incremental.andThen (.require ..) fun _ => .ret _).takes)
    (.andThen (m := 2) (n := 0) takes_parseField fun _ =>
      (Incremental.andThen (.lift _) fun _ => .andThen (.lift _) fun _ => .ret _).takes)

theorem incremental_fieldStep (σ : Parsed) : Incremental (fieldStep σ) :=
  .atLeast (incremental_fieldOrEnd σ) (takes_fieldOrEnd σ)

theorem takes_fieldStep (σ : Parsed) : Takes 2 (fieldStep σ) := by
  intro b r rest h
  obtain ⟨-, h⟩ := atLeast_eq_done h
  exact takes_fieldOrEnd σ b r rest h

theorem consumes_fieldStep : Consumes fieldStep := consumes_of_takes Nat.two_pos takes_fieldStep

theorem incremental_scanFields (σ : Parsed) : Incremental (scanFields σ) :=
  .repeated consumes_fieldStep incremental_fieldStep σ

theorem takes_scanFields (σ : Parsed) : Takes 2 (scanFields σ) := by
  intro b r rest h
  rcases repeated_eq_done consumes_fieldStep h with hstop | ⟨σ', mid, hagain, hmid⟩
  · exact takes_fieldStep σ b _ rest hstop
  · have h1 := takes_fieldStep σ b _ mid hagain
    have h2 := (incremental_scanFields σ').takes mid r rest hmid
    omega

theorem incremental_scanHeader (σ : Parsed) : Incremental (scanHeader σ) := by
  unfold scanHeader
  split
  · exact .andThen (incremental_parseStartLine _) incremental_scanFields
  · exact .andThen (incremental_parseStartLine _) incremental_scanFields
  · exact incremental_scanFields σ
  · exact .ret σ

/-! ### Chunks -/

theorem incremental_quotedString : Incremental quotedString := by
  refine .repeated (consumes_of_takes Nat.one_pos fun _ => .andThen (m := 1) (n := 0) .item ?_)
    (fun _ => .andThen .item ?_) ()
  · exact fun _ => Incremental.takes (.ite (.ret _) (.ite (.andThen .item fun _ => .ret _) (.ret _)))
  · exact fun _ => .ite (.ret _) (.ite (.andThen .item fun _ => .ret _) (.ret _))

theorem incremental_extensionValue : Incremental extensionValue :=
  .andThen (.span _) fun _ => .andThen .peek fun _ =>
    .ite (.andThen .item fun _ => incremental_quotedString)
      (.andThen (.require ..) fun _ => .andThen (.span _) fun _ => .ret _)

theorem incremental_extension (semi : Bool) : Incremental (extension semi) := by
  cases semi with
  | false =>
    exact .andThen .peek fun _ => .ite
      (.andThen (.span _) fun _ => .andThen .item fun _ => .andThen (.require ..) fun _ => .ret _)
      (.ret _)
  | true =>
    exact .andThen (.span _) fun _ => .andThen .peek fun _ => .andThen (.require ..) fun _ =>
      .andThen (.span _) fun _ => .andThen (.span _) fun _ => .andThen .peek fun _ =>
      .ite (.andThen .item fun _ => .ret _)
        (.ite (.andThen .item fun _ => .andThen incremental_extensionValue fun _ => .ret _)
          (.ite (.ret _) (.fail _)))

/- An extension that is followed by another has at least its separator. -/
theorem consumes_extension : Consumes extension := by
  intro semi b semi' rest h
  cases semi with
  | false =>
    obtain ⟨c, mid, hpeek, h⟩ := andThen_eq_done h
    have hle := Incremental.peek.shrinks hpeek
    split at h
    · obtain ⟨_, mid', hspan, h⟩ := andThen_eq_done h
      have hle' := (Incremental.span _).shrinks hspan
      have hlt := Takes.andThen (m := 1) (n := 0) .item
        (fun _ => Incremental.takes (.andThen (.require ..) fun _ => .ret _)) _ _ _ h
      omega
    · cases h
  | true =>
    obtain ⟨_, b1, h1, h⟩ := andThen_eq_done h
    obtain ⟨_, b2, h2, h⟩ := andThen_eq_done h
    obtain ⟨_, b3, h3, h⟩ := andThen_eq_done h
    obtain ⟨_, b4, h4, h⟩ := andThen_eq_done h
    obtain ⟨bws, b5, h5, h⟩ := andThen_eq_done h
    obtain ⟨c, b6, h6, h⟩ := andThen_eq_done h
    have hle1 := (Incremental.span _).shrinks h1
    have hle2 := Incremental.peek.shrinks h2
    have hle3 := (Incremental.require ..).shrinks h3
    have hle4 := (Incremental.span _).shrinks h4
    have hle5 := (Incremental.span _).shrinks h5
    have hle6 := Incremental.peek.shrinks h6
    split at h
    · have hlt := Takes.andThen (m := 1) (n := 0) .item
        (fun _ => (Incremental.ret _).takes) _ _ _ h
      omega
    · split at h
      · have hlt := Takes.andThen (m := 1) (n := 0) .item
          (fun _ => Incremental.takes (.andThen incremental_extensionValue fun _ => .ret _)) _ _ _ h
        omega
      · split at h <;> cases h

theorem incremental_parseChunkExtensions : Incremental parseChunkExtensions :=
  .repeated consumes_extension incremental_extension false

theorem incremental_findEol : Incremental findEol :=
  .andThen (.span _) fun _ => .andThen .item fun _ => .andThen .item fun _ =>
  .andThen (.require ..) fun _ => .ret _

theorem takes_findEol : Takes 2 findEol :=
  .andThen (m := 0) (n := 2) (Incremental.span _).takes fun _ =>
  .andThen (m := 1) (n := 1) .item fun _ => .andThen (m := 1) (n := 0) .item fun _ =>
  (Incremental.andThen (.require ..) fun _ => .ret _).takes

theorem incremental_chunkData (σ : Parsed) : Incremental (chunkData σ) :=
  .ite (.andThen (.exactly _) fun _ => .ret _) (.ret _)

theorem incremental_chunkLine (σ : Parsed) : Incremental (chunkLine σ) :=
  .andThen (.ite (.andThen .item fun _ => .andThen (.require ..) fun _ =>
    .andThen .item fun _ => .require ..) (.ret _)) fun _ =>
  .andThen incremental_findEol fun _ => .lift _

theorem takes_chunkLine (σ : Parsed) : Takes 2 (chunkLine σ) :=
  .andThen (m := 0) (n := 2) (Incremental.ite (.andThen .item fun _ => .andThen (.require ..) fun _ =>
    .andThen .item fun _ => .require ..) (.ret _)).takes fun _ =>
  .andThen (m := 2) (n := 0) takes_findEol fun _ => (Incremental.lift _).takes

theorem incremental_chunkStep (σ : Parsed) : Incremental (chunkStep σ) :=
  .andThen (incremental_chunkData σ) fun _ => .andThen (incremental_chunkLine _) fun _ =>
    .ite (.andThen (incremental_scanFields _) fun _ => .ret _) (.ite (.fail _) (.ret _))

theorem takes_chunkStep (σ : Parsed) : Takes 2 (chunkStep σ) :=
  .andThen (m := 0) (n := 2) (incremental_chunkData σ).takes fun _ =>
  .andThen (m := 2) (n := 0) (takes_chunkLine _) fun _ => Incremental.takes <|
    .ite (.andThen (incremental_scanFields _) fun _ => .ret _) (.ite (.fail _) (.ret _))

theorem consumes_chunkStep : Consumes chunkStep := consumes_of_takes Nat.two_pos takes_chunkStep

theorem incremental_scanChunks (σ : Parsed) : Incremental (scanChunks σ) :=
  .repeated consumes_chunkStep incremental_chunkStep σ

theorem incremental_scanToEof (σ : Parsed) : Incremental (scanToEof σ) where
  final b later h := by
    unfold scanToEof at h ⊢
    by_cases hb : σ.bodyLimit < b.length
    · rw [if_pos hb, if_pos (by rw [List.length_append]; omega)]
      rfl
    · exact absurd (if_neg hb) h
  prompt b later a rest h := by
    unfold scanToEof at h
    split at h <;> cases h
  suffix b a rest h := by
    unfold scanToEof at h
    split at h <;> cases h

theorem incremental_scanBody (σ : Parsed) : Incremental (scanBody σ) := by
  unfold scanBody
  split
  · exact .andThen (.exactly _) fun _ => .ret _
  · exact .andThen (.exactly _) fun _ => .ret _
  · exact incremental_scanToEof σ
  · exact incremental_scanToEof σ
  · exact incremental_scanChunks _
  · exact incremental_scanChunks _
  · exact incremental_scanChunks σ
  · exact .ret σ

/-- Bytes that arrive later change neither a response nor where it ends. -/
theorem incremental_scanMessage (σ : Parsed) : Incremental (scanMessage σ) := by
  have hheader : Incremental (andThen (scanHeader σ) afterHeader) :=
    .andThen (incremental_scanHeader σ) fun _ => .andThen (.lift _) incremental_scanBody
  unfold scanMessage
  split
  · exact hheader
  · exact hheader
  · exact hheader
  · exact incremental_scanBody σ

theorem incremental_scanResponse (m : Response) : Incremental (scanResponse m) :=
  .andThen (incremental_scanMessage _) fun _ => .ret _

end RestClient.ResponseParser
