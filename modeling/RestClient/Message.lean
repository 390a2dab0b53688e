import Mathlib.Data.List.DropRight

/-!
# Strings and HTTP messages

Strings are lists of characters. Of the vendored `http::message` the client
uses the request line, the header fields in insertion order, and of a response
the status code and the body.
-/

namespace RestClient

abbrev Str := List Char

def isBlank (c : Char) : Bool := c == ' ' || c == '\t'

/- `trim_back`. -/
def trimBack (s : Str) : Str := s.rdropWhile isBlank

/- `detail::trim` takes the blanks off both ends of a field's value. -/
def trim (s : Str) : Str := trimBack (s.dropWhile isBlank)

theorem dropWhile_front (s : Str) :
    ∀ c, (s.dropWhile isBlank).head? = some c → isBlank c = false := by
  intro c hc
  have hnot := List.head?_dropWhile_not isBlank s
  rw [hc] at hnot
  simpa using hnot

inductive Verb where
  | unknown
  | get
  deriving DecidableEq, Repr

/-- `http::request<http::empty_body>`. -/
structure HttpRequest where
  version : ℕ
  method : Verb
  target : Str
  fields : List (Str × Str)
  deriving DecidableEq, Repr

/-- A default-constructed request (http/message.hpp). -/
instance : Inhabited HttpRequest := ⟨⟨11, .unknown, [], []⟩⟩

/-- `target(s)` sets the request-target and nothing else. -/
def HttpRequest.setTarget (r : HttpRequest) (s : Str) : HttpRequest := { r with target := s }

/-- `http::response<http::string_body>`: `result_int()` and `body()`. -/
structure HttpResponse where
  status : ℕ
  body : Str
  deriving DecidableEq, Repr

/-- A default-constructed response has status 200 and an empty body. -/
instance : Inhabited HttpResponse := ⟨⟨200, []⟩⟩

/-- The informational class, `status_ / 100 == 1` (basic_parser.ipp:511). -/
def HttpResponse.interim (r : HttpResponse) : Bool := r.status / 100 == 1

end RestClient
