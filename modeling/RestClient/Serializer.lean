import Mathlib.Algebra.Group.Nat.Defs
import RestClient.HttpGrammar

/-!
# The vendored serializer

`http::serializer` (http/impl/serializer.hpp) and the write operations that run it
(http/impl/write.hpp): the states of `next` and `consume`, the chunked coding
(http/detail/chunk_encode.hpp), and what the stream has got when it takes as much of each
buffer as it likes.
-/

namespace RestClient

/-! ### Writers of a body -/

/- What a writer reports: it waits for more of the body, or it has failed. -/
inductive WriterError where
  | needMore
  | other (code : ℕ)
  deriving DecidableEq, Repr

/- What `get` returns: nothing, an error, or a buffer and whether others follow it. -/
inductive Got where
  | none
  | failed (e : WriterError)
  | buffer (data : Str) (more : Bool)
  deriving DecidableEq, Repr

/-- A type of bodies that can be written: the error of `init`, and the buffers of `get`. -/
structure BodyWriter (W : Type) where
  init : W → Option WriterError × W
  get : W → Got × W

/- `empty_body::writer`. -/
def emptyBody : BodyWriter Unit where
  init _ := (none, ())
  get _ := (.none, ())

/-! ### The chunked coding -/

def hexDigit (n : ℕ) : Char := "0123456789abcdef".toList.getD n '0'

/- The loop of `to_hex`, which writes the digits backwards in front of `last`. -/
def hexDigits : ℕ → ℕ → Str → Str
  | 0, _, last => last
  | k + 1, n, last =>
    if n = 0 then last else hexDigits k (n / 16) (hexDigit (n % 16) :: last)

/- `chunk_size`. -/
def toHex (n : ℕ) : Str := if n = 0 then ['0'] else hexDigits n n []

def chunk (data : Str) : Str := toHex data.length ++ crlf ++ data ++ crlf

def chunkLast : Str := "0\r\n".toList

/- The last chunk, with no trailers. -/
def finalChunk : Str := chunkLast ++ crlf

/-- The bytes of a body that comes in the pieces `ps`. -/
def encode (chunked : Bool) (ps : List Str) : Str :=
  if chunked then ps.flatMap chunk ++ finalChunk else ps.flatten

/-! ### `next` and `consume` -/

/- The values of `s_`. -/
inductive SerializerState where
  | construct
  | init
  | headerOnly
  | header
  | body
  | body1
  | body2
  | initC
  | headerOnlyC
  | headerC
  | bodyC
  | bodyC1
  | bodyC2
  | finalC
  | finalC1
  | bodyFinalC
  | allC
  | complete
  deriving DecidableEq, Repr

/-- A serializer: `header` is what the writer of the fields gives, `v` what is left of the
buffers last offered. -/
structure Serializer (W : Type) where
  header : Str
  chunked : Bool
  wr : W
  limit : ℕ
  s : SerializerState
  v : Str
  split : Bool
  headerDone : Bool
  more : Bool

/- What `next` does: it visits buffers, fails, or finds the message at its end. -/
inductive Visit where
  | visited (data : Str)
  | failed (e : WriterError)
  | done
  deriving DecidableEq, Repr

namespace Serializer
variable {W : Type}

/- The limit of a serializer without one. -/
def noLimit : ℕ := 2 ^ 64 - 1

def start (header : Str) (chunked split : Bool) (wr : W) : Serializer W where
  header := header
  chunked := chunked
  wr := wr
  limit := noLimit
  s := .construct
  v := []
  split := split
  headerDone := false
  more := false

def setLimit (z : Serializer W) (limit : ℕ) : Serializer W :=
  { z with limit := if 0 < limit then limit else noLimit }

def isDone (z : Serializer W) : Bool := z.s == .complete

/- `do_visit`. -/
def visit (z : Serializer W) : Visit × Serializer W := (.visited (z.v.take z.limit), z)

/- From `do_init`. -/
def nextInit (B : BodyWriter W) (z : Serializer W) : Visit × Serializer W :=
  match B.init z.wr with
  | (some e, wr) => (.failed e, { z with wr := wr })
  | (none, wr) =>
    if z.split then visit { z with wr := wr, v := z.header, s := .headerOnly }
    else
      match B.get wr with
      | (.failed .needMore, wr) => visit { z with wr := wr, v := z.header, s := .headerOnly }
      | (.failed e, wr) => (.failed e, { z with wr := wr })
      | (.none, wr) => visit { z with wr := wr, v := z.header, s := .headerOnly }
      | (.buffer data more, wr) =>
        visit { z with wr := wr, more := more, v := z.header ++ data, s := .header }

/- From `do_body + 1`. -/
def nextBody (B : BodyWriter W) (z : Serializer W) : Visit × Serializer W :=
  match B.get z.wr with
  | (.failed e, wr) => (.failed e, { z with wr := wr })
  | (.none, wr) => (.done, { z with wr := wr, s := .complete })
  | (.buffer data more, wr) => visit { z with wr := wr, more := more, v := data, s := .body2 }

/- From `do_init_c`: with a body in one buffer all is offered together. -/
def nextInitC (B : BodyWriter W) (z : Serializer W) : Visit × Serializer W :=
  match B.init z.wr with
  | (some e, wr) => (.failed e, { z with wr := wr })
  | (none, wr) =>
    if z.split then visit { z with wr := wr, v := z.header, s := .headerOnlyC }
    else
      match B.get wr with
      | (.failed .needMore, wr) => visit { z with wr := wr, v := z.header, s := .headerOnlyC }
      | (.failed e, wr) => (.failed e, { z with wr := wr })
      | (.none, wr) => visit { z with wr := wr, v := z.header, s := .headerOnlyC }
      | (.buffer data false, wr) =>
        visit { z with
          wr := wr, more := false, v := z.header ++ chunk data ++ finalChunk, s := .allC }
      | (.buffer data true, wr) =>
        visit { z with wr := wr, more := true, v := z.header ++ chunk data, s := .headerC }

/- From `do_body_c + 1`. -/
def nextBodyC (B : BodyWriter W) (z : Serializer W) : Visit × Serializer W :=
  match B.get z.wr with
  | (.failed e, wr) => (.failed e, { z with wr := wr })
  | (.none, wr) => visit { z with wr := wr, v := finalChunk, s := .finalC1 }
  | (.buffer data false, wr) =>
    visit { z with wr := wr, more := false, v := chunk data ++ finalChunk, s := .bodyFinalC }
  | (.buffer data true, wr) =>
    visit { z with wr := wr, more := true, v := chunk data, s := .bodyC2 }

/-- `next`: a state that has offered buffers offers what is left of them. -/
def next (B : BodyWriter W) (z : Serializer W) : Visit × Serializer W :=
  match z.s with
  | .construct =>
    if z.chunked then nextInitC B { z with s := .initC } else nextInit B { z with s := .init }
  | .init => nextInit B z
  | .body => nextBody B { z with s := .body1 }
  | .body1 => nextBody B z
  | .initC => nextInitC B z
  | .bodyC => nextBodyC B { z with s := .bodyC1 }
  | .bodyC1 => nextBodyC B z
  | .finalC => visit { z with v := finalChunk, s := .finalC1 }
  | .complete => (.done, z)
  | _ => visit z

/- Where `consume` goes when nothing is left of the buffers. -/
def consumed (z : Serializer W) : Serializer W :=
  match z.s with
  | .header => { z with headerDone := true, s := if z.more then .body1 else .complete }
  | .headerOnly => { z with headerDone := true, s := if z.split then .body else .complete }
  | .body2 => { z with s := if z.more then .body1 else .complete }
  | .headerC => { z with headerDone := true, s := if z.more then .bodyC1 else .finalC }
  | .headerOnlyC => { z with headerDone := true, s := if z.split then .bodyC else .finalC }
  | .bodyC2 => { z with s := if z.more then .bodyC1 else .finalC }
  | .bodyFinalC => { z with s := .complete }
  | .allC => { z with headerDone := true, s := .complete }
  | .finalC1 => { z with s := .complete }
  | _ => z

def consume (z : Serializer W) (n : ℕ) : Serializer W :=
  let z := { z with v := z.v.drop n }
  if z.v = [] then z.consumed else z

end Serializer

/-! ### Writing to a stream -/

/-- A serializer and what the stream has got from it. -/
structure Writing (W : Type) where
  sr : Serializer W
  wire : Str

/- The limit is set, or some of the message is written: the stream takes a byte at least, if it
is offered one. -/
inductive WriteStep where
  | limit (n : ℕ)
  | writeSome (n : ℕ)
  deriving DecidableEq, Repr

namespace Writing
variable {W : Type}

/- `write_some_op`. After a failure the operation is started again. -/
def writeSome (B : BodyWriter W) (w : Writing W) (n : ℕ) : Writing W :=
  if w.sr.isDone then w
  else
    match w.sr.next B with
    | (.visited data, sr) =>
      ⟨sr.consume (min (n + 1) data.length), w.wire ++ data.take (n + 1)⟩
    | (_, sr) => ⟨sr, w.wire⟩

def step (B : BodyWriter W) (w : Writing W) : WriteStep → Writing W
  | .limit n => { w with sr := w.sr.setLimit n }
  | .writeSome n => w.writeSome B n

/-- The write of a message, from its first call. -/
def run (B : BodyWriter W) (header : Str) (chunked split : Bool) (wr : W)
    (ops : List WriteStep) : Writing W :=
  ops.foldl (step B) ⟨Serializer.start header chunked split wr, []⟩

end Writing

end RestClient
