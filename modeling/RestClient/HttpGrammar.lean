import RestClient.Lib.Parsing
import RestClient.Message

/-!
# Messages on the wire

The bytes the vendored serializer writes for a request (http/impl/fields.hpp) and
the grammar a server reads requests by, with the character classes of the vendored
parser (http/detail/basic_parser.ipp). It is the request syntax of that parser without
its limit of the header, and takes more targets and hosts than the standard has. A
character stands for the bytes of its encoding; those outside ASCII are all `obs-text`.
-/

namespace RestClient
open Parsing

def crlf : Str := "\r\n".toList

/- `is_pathchar`. -/
def isPathchar (c : Char) : Bool := 0x20 < c.toNat && c.toNat != 0x7f

/- `is_token_char`. -/
def isTokenChar (c : Char) : Bool := c.isAlphanum || c ∈ "!#$%&'*+-.^_`|~".toList

/- What may stand in a line (`parse_token_to_eol`). -/
def isFieldChar (c : Char) : Bool := c == '\t' || (0x20 ≤ c.toNat && c.toNat != 0x7f)

/-! ### Writing -/

def digit (n : ℕ) : Char := Char.ofNat ('0'.toNat + n)

/- `method_string()`; an unknown verb has no name of its own here. -/
def Verb.name : Verb → Str
  | .unknown => []
  | .get => "GET".toList

def writeField (f : Str × Str) : Str := f.1 ++ ": ".toList ++ f.2 ++ crlf

/- The writer for requests (http/impl/fields.hpp:184-222); an empty body adds nothing. -/
def HttpRequest.serialize (r : HttpRequest) : Str :=
  r.method.name ++ ' ' :: r.target ++ " HTTP/".toList ++
    [digit (r.version / 10), '.', digit (r.version % 10)] ++ crlf ++
    r.fields.flatMap writeField ++ crlf

/-! ### Reading -/

/- `parse_method` and `parse_target`: a word that is not empty, then a space. -/
def parseWord (keep : Char → Bool) : Parser Char Str :=
  andThen (word keep) fun w =>
  andThen (check (!w.isEmpty)) fun _ =>
  andThen (literal [' ']) fun _ => ret w

/- Versions 1.0 and 1.1 (`parse_version` and the test after it). -/
def parseVersion : Parser Char ℕ :=
  andThen (literal "HTTP/1.".toList) fun _ =>
  andThen (exactly 1) fun minor =>
  andThen (check (minor == ['0'] || minor == ['1'])) fun _ =>
  ret (if minor = ['0'] then 10 else 11)

/- `field-name ":" OWS field-value OWS CRLF`. A folded line does not begin with a name
and is rejected. -/
def parseField : Parser Char (Str × Str) :=
  andThen (word isTokenChar) fun name =>
  andThen (check (!name.isEmpty)) fun _ =>
  andThen (literal [':']) fun _ =>
  andThen (word isBlank) fun _ =>
  andThen (word isFieldChar) fun value =>
  andThen (literal crlf) fun _ => ret (name, trimBack value)

/- The bound ends the recursion: there are fewer fields than the vendored parser admits
bytes of a header. -/
def parseFields : Parser Char (List (Str × Str)) := manyUntil (literal crlf) parseField 8192

structure ParsedRequest where
  method : Str
  target : Str
  version : ℕ
  fields : List (Str × Str)
  body : Str
  deriving DecidableEq

/- A request has a body only when one of these fields announces it. -/
def announcesBody (fields : List (Str × Str)) : Bool :=
  fields.any fun f =>
    f.1.map Char.toLower ∈ ["content-length".toList, "transfer-encoding".toList]

/- `bodyOf` is how the server reads an announced body. -/
def parseBody (bodyOf : List (Str × Str) → Parser Char Str) (fields : List (Str × Str)) :
    Parser Char Str :=
  if announcesBody fields then bodyOf fields else ret []

/- `request-line = method SP request-target SP HTTP-version CRLF`, fields, CRLF, body. -/
def parseRequest (bodyOf : List (Str × Str) → Parser Char Str) : Parser Char ParsedRequest :=
  andThen (parseWord isTokenChar) fun method =>
  andThen (parseWord isPathchar) fun target =>
  andThen parseVersion fun version =>
  andThen (literal crlf) fun _ =>
  andThen parseFields fun fields =>
  andThen (parseBody bodyOf fields) fun body => ret ⟨method, target, version, fields, body⟩

def atEnd : Parser Char Unit := fun b => if b = [] then some ((), []) else none

/- The requests a server reads from a connection that carries `bytes`. -/
def parseRequests (bodyOf : List (Str × Str) → Parser Char Str) (bytes : Str) :
    Option (List ParsedRequest) :=
  (manyUntil atEnd (parseRequest bodyOf) (bytes.length + 1) bytes).map Prod.fst

/-! ### What is written is read back -/

/- A field that is read back as it is: a name, and a value without control
characters and without blanks at its ends. -/
structure WrittenField (f : Str × Str) : Prop where
  named : f.1 ≠ []
  token : ∀ c ∈ f.1, isTokenChar c = true
  value : ∀ c ∈ f.2, isFieldChar c = true
  front : ∀ c, f.2.head? = some c → isBlank c = false
  back : trimBack f.2 = f.2

theorem parseWord_append {keep : Char → Bool} {w : Str} (hne : w ≠ [])
    (hw : ∀ c ∈ w, keep c = true) (hsp : keep ' ' = false) (rest : Str) :
    parseWord keep (w ++ ' ' :: rest) = some (w, rest) := by
  have hsome : (!w.isEmpty) = true := by
    cases w with
    | nil => exact absurd rfl hne
    | cons c w => rfl
  rw [parseWord, andThen_of_some (word_append hw hsp rest),
    andThen_of_some (check_of_true hsome _)]
  exact andThen_of_some (literal_append [' '] rest) _

theorem parseWord_kept {keep : Char → Bool} {b w rest : Str}
    (h : parseWord keep b = some (w, rest)) : ∀ c ∈ w, keep c = true := by
  obtain ⟨w', mid, hword, h⟩ := andThen_eq_some h
  obtain ⟨_, mid', _, h⟩ := andThen_eq_some h
  obtain ⟨_, mid'', _, h⟩ := andThen_eq_some h
  cases h
  exact word_kept hword

theorem parseField_write {f : Str × Str} (h : WrittenField f) (rest : Str) :
    parseField (writeField f ++ rest) = some (f, rest) := by
  obtain ⟨name, value⟩ := f
  have hsome : (!name.isEmpty) = true := by
    cases name with
    | nil => exact absurd rfl h.named
    | cons c w => rfl
  have hbytes : writeField (name, value) ++ rest =
      name ++ ':' :: ([' '] ++ (value ++ '\r' :: '\n' :: rest)) := by
    simp [writeField, crlf]
  -- the blank before the value is the only one: the value begins with none
  have hblank : word isBlank ([' '] ++ (value ++ '\r' :: '\n' :: rest)) =
      some ([' '], value ++ '\r' :: '\n' :: rest) := by
    cases value with
    | nil => exact word_append (List.forall_mem_singleton.mpr rfl) (by decide) _
    | cons c v => exact word_append (List.forall_mem_singleton.mpr rfl) (h.front c rfl) _
  have hcolon : literal [':'] (':' :: ([' '] ++ (value ++ '\r' :: '\n' :: rest))) =
      some ((), [' '] ++ (value ++ '\r' :: '\n' :: rest)) := literal_append [':'] _
  have hend : literal crlf ('\r' :: '\n' :: rest) = some ((), rest) := literal_append crlf rest
  rw [hbytes, parseField, andThen_of_some (word_append h.token (by decide) _),
    andThen_of_some (check_of_true hsome _), andThen_of_some hcolon, andThen_of_some hblank,
    andThen_of_some (word_append h.value (by decide) _), andThen_of_some hend, ret, h.back]

theorem not_crlf_of_token {c : Char} (hc : isTokenChar c = true) (rest : Str) :
    literal crlf (c :: rest) = none := by
  refine if_neg ?_
  rintro ⟨t, ht⟩
  obtain ⟨rfl, -⟩ := List.cons.inj ht
  exact absurd hc (by decide)

theorem writeField_ne_crlf {f : Str × Str} (h : WrittenField f) (rest : Str) :
    literal crlf (writeField f ++ rest) = none := by
  obtain ⟨c, name, hname⟩ := List.exists_cons_of_ne_nil h.named
  have hc := h.token c (by rw [hname]; exact List.mem_cons_self ..)
  rw [writeField, hname]
  exact not_crlf_of_token hc _

theorem parseFields_write {fields : List (Str × Str)} (h : ∀ f ∈ fields, WrittenField f)
    (hfew : fields.length < 8192) (rest : Str) :
    parseFields (fields.flatMap writeField ++ (crlf ++ rest)) = some (fields, rest) := by
  have hread := manyUntil_flatMap hfew (literal_append crlf rest)
    (fun f hf => writeField_ne_crlf (h f hf)) (fun f hf => parseField_write (h f hf))
  rw [List.map_id'] at hread
  exact hread

/- What a server makes of a request whose target it accepts. -/
def HttpRequest.received (r : HttpRequest) : ParsedRequest :=
  ⟨"GET".toList, r.target, 11, r.fields, []⟩

/- The requests of the session, their target aside. -/
structure Plain (r : HttpRequest) : Prop where
  method : r.method = .get
  version : r.version = 11
  fields : ∀ f ∈ r.fields, WrittenField f
  few : r.fields.length < 8192
  bodyless : announcesBody r.fields = false

theorem serialize_append {r : HttpRequest} (h : Plain r) (rest : Str) :
    r.serialize ++ rest = "GET".toList ++ ' ' :: (r.target ++ ' ' :: ("HTTP/1.".toList ++
      (['1'] ++ (crlf ++ (r.fields.flatMap writeField ++ (crlf ++ rest)))))) := by
  have hversion : [digit (r.version / 10), '.', digit (r.version % 10)] = ['1', '.', '1'] := by
    rw [h.version]
    decide
  rw [HttpRequest.serialize, h.method, hversion]
  simp [Verb.name, List.append_assoc]

theorem parseVersion_append (rest : Str) :
    parseVersion ("HTTP/1.".toList ++ (['1'] ++ rest)) = some (11, rest) := by
  have hminor : exactly 1 (['1'] ++ rest) = some (['1'], rest) := if_pos (Nat.succ_pos _)
  rw [parseVersion, andThen_of_some (literal_append _ _), andThen_of_some hminor]
  rfl

theorem parseRequest_serialize (bodyOf : List (Str × Str) → Parser Char Str) {r : HttpRequest}
    (h : Plain r) (hne : r.target ≠ []) (htarget : ∀ c ∈ r.target, isPathchar c = true)
    (rest : Str) : parseRequest bodyOf (r.serialize ++ rest) = some (r.received, rest) := by
  have hbody : parseBody bodyOf r.fields rest = some ([], rest) := by
    rw [parseBody, h.bodyless]
    rfl
  rw [serialize_append h, parseRequest,
    andThen_of_some (parseWord_append (by decide) (List.all_eq_true.mp rfl) (by decide) _),
    andThen_of_some (parseWord_append hne htarget (by decide) _),
    andThen_of_some (parseVersion_append _), andThen_of_some (literal_append crlf _),
    andThen_of_some (parseFields_write h.fields h.few _), andThen_of_some hbody]
  rfl

/- The characters of whatever a server reads. -/
structure Legible (r : ParsedRequest) : Prop where
  target : ∀ c ∈ r.target, isPathchar c = true
  values : ∀ f ∈ r.fields, ∀ c ∈ f.2, isFieldChar c = true

theorem parseField_value {b rest : Str} {f : Str × Str} (h : parseField b = some (f, rest)) :
    ∀ c ∈ f.2, isFieldChar c = true := by
  obtain ⟨name, _, _, h⟩ := andThen_eq_some h
  obtain ⟨_, _, _, h⟩ := andThen_eq_some h
  obtain ⟨_, _, _, h⟩ := andThen_eq_some h
  obtain ⟨_, _, _, h⟩ := andThen_eq_some h
  obtain ⟨value, _, hvalue, h⟩ := andThen_eq_some h
  obtain ⟨_, _, _, h⟩ := andThen_eq_some h
  cases h
  intro c hc
  exact word_kept hvalue c ((List.rdropWhile_prefix isBlank value).subset hc)

theorem parseRequest_legible {bodyOf : List (Str × Str) → Parser Char Str} {b rest : Str}
    {r : ParsedRequest} (h : parseRequest bodyOf b = some (r, rest)) : Legible r := by
  obtain ⟨method, _, _, h⟩ := andThen_eq_some h
  obtain ⟨target, _, htarget, h⟩ := andThen_eq_some h
  obtain ⟨version, _, _, h⟩ := andThen_eq_some h
  obtain ⟨_, _, _, h⟩ := andThen_eq_some h
  obtain ⟨fields, _, hfields, h⟩ := andThen_eq_some h
  obtain ⟨body, _, _, h⟩ := andThen_eq_some h
  cases h
  refine ⟨parseWord_kept htarget, ?_⟩
  exact manyUntil_forall (fun b f rest hf => parseField_value hf) hfields

theorem parseRequests_legible {bodyOf : List (Str × Str) → Parser Char Str} {bytes : Str}
    {rs : List ParsedRequest} (h : parseRequests bodyOf bytes = some rs) : ∀ r ∈ rs, Legible r := by
  obtain ⟨⟨rs', rest⟩, hread, hrs⟩ := Option.map_eq_some_iff.mp h
  cases hrs
  exact manyUntil_forall (fun b r rest hr => parseRequest_legible hr) hread

theorem serialize_ne_nil {r : HttpRequest} (h : Plain r) (rest : Str) :
    atEnd (r.serialize ++ rest) = none := by
  rw [serialize_append h]
  rfl

/- A sequence of requests is read back as that sequence. -/
theorem parseRequests_serialize (bodyOf : List (Str × Str) → Parser Char Str)
    {rs : List HttpRequest} (h : ∀ r ∈ rs, Plain r ∧ r.target ≠ [] ∧
      ∀ c ∈ r.target, isPathchar c = true) :
    parseRequests bodyOf (rs.flatMap HttpRequest.serialize) =
      some (rs.map HttpRequest.received) := by
  have hbytes : ∀ r ∈ rs, r.serialize ≠ [] := by
    intro r hr hnil
    have hsome := serialize_ne_nil (h r hr).1 []
    rw [hnil] at hsome
    cases hsome
  have hlength := Nat.lt_succ_of_le (length_le_flatMap hbytes)
  have hread := manyUntil_flatMap hlength (show atEnd [] = some ((), []) from rfl)
    (fun r hr => serialize_ne_nil (h r hr).1)
    (fun r hr => parseRequest_serialize bodyOf (h r hr).1 (h r hr).2.1 (h r hr).2.2)
  rw [List.append_nil] at hread
  rw [parseRequests, hread]
  rfl

end RestClient
