import RestClient.Framing
import RestClient.WrittenMessage

/-!
# A body is read as it was written

The serializer's coding of a body against the parser's reading of it: the digits of a chunk's
size, the chunks, and which bodies the header lets through. An empty piece is written as a chunk
of no bytes, which is the last chunk for the parser.
-/

namespace RestClient.ResponseParser
open Scanning

/-! ### The size of a chunk -/

theorem unhex_hexDigit (n : ℕ) (h : n < 16) : unhex (hexDigit n) = some n := by
  revert n
  decide

theorem unhex_cr : unhex '\r' = none := by decide

/- The digits are read from the first, and none of the values on the way is too large. -/
theorem hexFrom_hexDigits {k n : ℕ} (hk : n ≤ k) (hn : n ≤ uint64Max) (last : Str) :
    hexFrom 0 (hexDigits k n last) = hexFrom n last := by
  induction k generalizing n last with
  | zero =>
    obtain rfl := Nat.le_zero.mp hk
    rfl
  | succ k ih =>
    rw [hexDigits]
    split
    · rename_i hzero
      rw [hzero]
    · rw [ih (by omega) (by omega), hexFrom, unhex_hexDigit _ (Nat.mod_lt n (by decide))]
      dsimp only
      rw [if_neg (by omega), if_neg (by omega), Nat.div_add_mod']

theorem hexDigits_append (k n : ℕ) (last : Str) :
    hexDigits k n last = hexDigits k n [] ++ last := by
  induction k generalizing n last with
  | zero => rfl
  | succ k ih =>
    rw [hexDigits, hexDigits]
    split
    · rfl
    · rw [ih, ih _ [_], List.append_assoc]
      rfl

theorem hexDigits_isSome {k n : ℕ} : ∀ c ∈ hexDigits k n [], (unhex c).isSome = true := by
  induction k generalizing n with
  | zero => exact fun c hc => absurd hc List.not_mem_nil
  | succ k ih =>
    intro c hc
    rw [hexDigits] at hc
    split at hc
    · exact absurd hc List.not_mem_nil
    · rw [hexDigits_append] at hc
      rcases List.mem_append.mp hc with hc | hc
      · exact ih c hc
      · rw [List.mem_singleton.mp hc, unhex_hexDigit _ (Nat.mod_lt n (by decide))]
        rfl

theorem toHex_isSome (n : ℕ) : ∀ c ∈ toHex n, (unhex c).isSome = true := by
  unfold toHex
  split
  · exact List.forall_mem_singleton.mpr rfl
  · exact hexDigits_isSome

theorem toHex_ne_nil (n : ℕ) : toHex n ≠ [] := by
  unfold toHex
  split
  · exact List.cons_ne_nil _ _
  · rename_i hn
    obtain ⟨k, rfl⟩ := Nat.exists_eq_succ_of_ne_zero hn
    rw [hexDigits, if_neg hn, hexDigits_append]
    exact List.append_ne_nil_of_right_ne_nil _ (List.cons_ne_nil _ _)

/-- The size is read back, up to the end of its line. -/
theorem parseHex_toHex {n : ℕ} (hn : n ≤ uint64Max) (rest : Str) :
    parseHex (toHex n ++ '\r' :: rest) = some (n, '\r' :: rest) := by
  have hvalue : hexFrom 0 (toHex n ++ '\r' :: rest) = some (n, '\r' :: rest) := by
    have hstop : hexFrom n ('\r' :: rest) = some (n, '\r' :: rest) := by
      rw [hexFrom, unhex_cr]
    unfold toHex
    split
    · rename_i hzero
      subst hzero
      rfl
    · rw [← hexDigits_append, hexFrom_hexDigits (Nat.le_refl n) hn, hstop]
  cases hdigits : toHex n with
  | nil => exact absurd hdigits (toHex_ne_nil n)
  | cons c s =>
    have hc := toHex_isSome n c (by rw [hdigits]; exact List.mem_cons_self)
    rw [hdigits] at hvalue
    have hsome : (unhex c).isNone = false := by
      rw [← Option.not_isSome, hc]
      rfl
    rw [List.cons_append, parseHex, hsome]
    exact hvalue

theorem toHex_noCr (n : ℕ) : ∀ c ∈ toHex n, (c != '\r') = true := by
  intro c hc
  have hsome := toHex_isSome n c hc
  refine bne_iff_ne.mpr fun h => ?_
  rw [h, unhex_cr] at hsome
  cases hsome

theorem sizeLine_toHex {n : ℕ} (hn : n ≤ uint64Max) : sizeLine (toHex n) = .ok n := by
  have hparse : parseHex (toHex n ++ crlf) = some (n, crlf) := parseHex_toHex hn ['\n']
  have hext : parseChunkExtensions crlf = .done () crlf := by decide
  unfold sizeLine
  rw [hparse]
  dsimp only
  rw [hext]
  rfl

/-! ### Chunks -/

/- The end of the chunk before, if there is one. -/
def lineEnd (σ : Parsed) : Str := if σ.expectCRLF then crlf else []

theorem findEol_line {line : Str} (hline : ∀ c ∈ line, (c != '\r') = true) (rest : Str) :
    findEol (line ++ crlf ++ rest) = .done line rest := by
  rw [List.append_assoc]
  exact andThen_of_done (span_append hline rfl _) _

theorem chunkLine_toHex (σ : Parsed) {n : ℕ} (hn : n ≤ uint64Max) (rest : Str) :
    chunkLine σ (lineEnd σ ++ (toHex n ++ crlf ++ rest)) = .done n rest := by
  have hline : andThen findEol (fun line => lift (sizeLine line)) (toHex n ++ crlf ++ rest) =
      .done n rest := by
    rw [andThen_of_done (findEol_line (toHex_noCr n) rest), sizeLine_toHex hn]
    rfl
  unfold chunkLine lineEnd
  split
  · exact hline
  · exact hline

/- Between the chunks there are no data. -/
theorem chunkData_line {σ : Parsed} (hs : σ.state = .chunkHeader) (b : Str) :
    chunkData σ b = .done σ b := by
  have hne : ¬ σ.state = .chunkBody := fun h => State.noConfusion (hs.symm.trans h)
  rw [chunkData, if_neg hne]
  rfl

/- Between the chunks a pass reads the line of the next. -/
theorem chunkStep_line {σ : Parsed} (hs : σ.state = .chunkHeader) {n : ℕ} (hn : n ≤ uint64Max)
    (rest : Str) : chunkStep σ (lineEnd σ ++ (toHex n ++ crlf ++ rest)) = afterLine σ n rest := by
  unfold chunkStep
  rw [andThen_of_done (chunkData_line hs _), andThen_of_done (chunkLine_toHex σ hn rest)]

/- The data of a chunk are added to the body. -/
theorem scanChunks_data {σ : Parsed} (hs : σ.state = .chunkBody) {data : Str}
    (hlen : data.length = σ.len) (rest : Str) :
    scanChunks σ (data ++ rest) =
      scanChunks { σ.addBody data with state := .chunkHeader } rest := by
  refine repeated_congr consumes_chunkStep ?_
  unfold chunkStep
  have hdata : chunkData σ (data ++ rest) =
      .done { σ.addBody data with state := .chunkHeader } rest := by
    rw [chunkData, if_pos hs, ← hlen, andThen_of_done (exactly_append data rest)]
    rfl
  rw [andThen_of_done hdata, andThen_of_done (chunkData_line rfl rest)]

theorem scanFields_empty (σ : Parsed) (rest : Str) :
    scanFields σ (crlf ++ rest) = .done σ rest := by
  refine repeated_stop ?_
  unfold fieldStep atLeast
  rw [if_pos (by rw [List.length_append]; exact Nat.le_add_right 2 _)]
  rfl

/- A chunk without data is the last. -/
theorem scanChunks_end {σ : Parsed} (hs : σ.state = .chunkHeader) (rest : Str) :
    scanChunks σ (lineEnd σ ++ (toHex 0 ++ crlf ++ (crlf ++ rest))) =
      .done { σ with state := .complete } rest := by
  refine repeated_stop ?_
  rw [chunkStep_line hs (Nat.zero_le _), afterLine, if_pos rfl,
    andThen_of_done (scanFields_empty σ rest)]
  rfl

theorem scanChunks_limit {σ : Parsed} (hs : σ.state = .chunkHeader) {n : ℕ} (hn : n ≤ uint64Max)
    (hpos : n ≠ 0) (hlimit : σ.bodyLimit < n) (rest : Str) :
    scanChunks σ (lineEnd σ ++ (toHex n ++ crlf ++ rest)) = .failed .bodyLimit := by
  refine repeated_failed ?_
  rw [chunkStep_line hs hn, afterLine, if_neg hpos, if_pos hlimit]
  rfl

/- A chunk has been read. -/
def Parsed.chunkRead (σ : Parsed) (data : Str) : Parsed :=
  { σ with
    bodyLimit := σ.bodyLimit - data.length
    len := data.length - data.length
    expectCRLF := true
    state := .chunkHeader
    m := { σ.m with body := σ.m.body ++ data } }

theorem scanChunks_chunk {σ : Parsed} (hs : σ.state = .chunkHeader) {data : Str}
    (hn : data.length ≤ uint64Max) (hne : data ≠ []) (hlimit : data.length ≤ σ.bodyLimit)
    (rest : Str) : scanChunks σ (lineEnd σ ++ (chunk data ++ rest)) =
      scanChunks (σ.chunkRead data) (lineEnd (σ.chunkRead data) ++ rest) := by
  have hsplit : chunk data ++ rest = toHex data.length ++ crlf ++ (data ++ (crlf ++ rest)) := by
    rw [chunk, List.append_assoc, List.append_assoc _ data]
  have hstep := chunkStep_line hs hn (data ++ (crlf ++ rest))
  rw [afterLine, if_neg (mt List.length_eq_zero_iff.mp hne),
    if_neg (Nat.not_lt_of_le hlimit)] at hstep
  rw [hsplit]
  refine (repeated_again consumes_chunkStep hstep).trans ?_
  exact scanChunks_data rfl rfl (crlf ++ rest)

/-! ### A chunked body -/

theorem encode_nil_append (rest : Str) :
    encode true [] ++ rest = toHex 0 ++ crlf ++ (crlf ++ rest) := rfl

theorem encode_cons_append (data : Str) (ps : List Str) (rest : Str) :
    encode true (data :: ps) ++ rest = chunk data ++ (encode true ps ++ rest) := by
  rw [(encode_cons data ps).2, List.append_assoc]

theorem chunk_nil_append (rest : Str) : chunk [] ++ rest = toHex 0 ++ crlf ++ (crlf ++ rest) := rfl

/-- Pieces that are not empty, and not more of them than the limit lets through, are read back
as one body. -/
theorem scanChunks_encode {σ : Parsed} (hs : σ.state = .chunkHeader) {ps : List Str}
    (hsize : ∀ p ∈ ps, p.length ≤ uint64Max) (hne : ∀ p ∈ ps, p ≠ [])
    (hlimit : ps.flatten.length ≤ σ.bodyLimit) (rest : Str) :
    ∃ σ', scanChunks σ (lineEnd σ ++ (encode true ps ++ rest)) = .done σ' rest ∧
      σ'.m = { σ.m with body := σ.m.body ++ ps.flatten } := by
  induction ps generalizing σ with
  | nil =>
    rw [encode_nil_append]
    refine ⟨_, scanChunks_end hs rest, ?_⟩
    rw [List.flatten_nil, List.append_nil]
  | cons p ps ih =>
    obtain ⟨hp, hsize⟩ := List.forall_mem_cons.mp hsize
    obtain ⟨hpne, hne⟩ := List.forall_mem_cons.mp hne
    rw [List.flatten_cons, List.length_append] at hlimit
    rw [encode_cons_append, scanChunks_chunk hs hp hpne (by omega)]
    have hlimit' : ps.flatten.length ≤ (σ.chunkRead p).bodyLimit := by
      show ps.flatten.length ≤ σ.bodyLimit - p.length
      omega
    obtain ⟨σ', hscan, hm⟩ := ih (σ := σ.chunkRead p) rfl hsize hne hlimit'
    refine ⟨σ', hscan, hm.trans ?_⟩
    rw [Parsed.chunkRead, List.flatten_cons, List.append_assoc]

/- Nothing else is. -/
theorem scanChunks_encode_only {σ σ' : Parsed} (hs : σ.state = .chunkHeader) {ps : List Str}
    (hsize : ∀ p ∈ ps, p.length ≤ uint64Max) {rest : Str}
    (h : scanChunks σ (lineEnd σ ++ (encode true ps ++ rest)) = .done σ' rest) :
    (∀ p ∈ ps, p ≠ []) ∧ ps.flatten.length ≤ σ.bodyLimit := by
  induction ps generalizing σ with
  | nil => exact ⟨fun p hp => absurd hp List.not_mem_nil, Nat.zero_le _⟩
  | cons p ps ih =>
    obtain ⟨hp, hsize⟩ := List.forall_mem_cons.mp hsize
    rw [encode_cons_append] at h
    by_cases hpne : p = []
    · -- the body ends here, and the rest of its coding is left
      subst hpne
      rw [chunk_nil_append, scanChunks_end hs] at h
      have hlen := congrArg List.length (Scanned.done.inj h).2
      rw [encode, if_pos rfl, List.length_append, List.length_append] at hlen
      have hfinal : finalChunk.length = 5 := rfl
      omega
    · by_cases hlimit : p.length ≤ σ.bodyLimit
      · rw [scanChunks_chunk hs hp hpne hlimit] at h
        obtain ⟨hne, hfits⟩ := ih (σ := σ.chunkRead p) rfl hsize h
        have hfits : ps.flatten.length ≤ σ.bodyLimit - p.length := hfits
        refine ⟨List.forall_mem_cons.mpr ⟨hpne, hne⟩, ?_⟩
        rw [List.flatten_cons, List.length_append]
        omega
      · rw [chunk, List.append_assoc, List.append_assoc _ p, scanChunks_limit hs hp
          (mt List.length_eq_zero_iff.mp hpne) (Nat.lt_of_not_le hlimit)] at h
        cases h

/-! ### The body by its header -/

/-- What the header makes of the body is what has been written: no bytes at all, bytes of the
length it tells, or chunks that the parser takes for the data of a body. -/
def Carried (σ : Parsed) (ps : List Str) : Prop :=
  match σ.state with
  | .complete => encode σ.chunked ps = []
  | .body0 => ps.flatten.length = σ.len
  | .chunkHeader0 => (∀ p ∈ ps, p ≠ []) ∧ ps.flatten.length ≤ σ.bodyLimit
  | _ => False

/- The body is read, to the end of its coding, exactly when it is carried. -/
def ReadBack (σ : Parsed) (ps : List Str) (rest : Str) : Prop :=
  (Carried σ ps → ∃ σ', scanBody σ (encode σ.chunked ps ++ rest) = .done σ' rest ∧
    σ'.m = { σ.m with body := σ.m.body ++ ps.flatten }) ∧
  ∀ σ', scanBody σ (encode σ.chunked ps ++ rest) = .done σ' rest → Carried σ ps

theorem flatten_of_encode_nil {chunked : Bool} {ps : List Str} (h : encode chunked ps = []) :
    ps.flatten = [] := by
  unfold encode at h
  split at h
  · exact absurd (List.append_eq_nil_iff.mp h).2 Serializer.finalChunk_ne_nil
  · exact h

/- A response that ends with its header. -/
theorem readBack_complete {σ : Parsed} (hs : σ.state = .complete) (ps : List Str) (rest : Str) :
    ReadBack σ ps rest := by
  have hret : ∀ b, scanBody σ b = .done σ b := by
    intro b
    rw [scanBody, hs]
    rfl
  rw [ReadBack, hret, Carried, hs]
  refine ⟨fun hnil => ⟨σ, ?_, ?_⟩, fun σ' h => ?_⟩
  · rw [hnil, List.nil_append]
  · rw [flatten_of_encode_nil hnil, List.append_nil]
  · exact List.append_left_eq_self.mp (Scanned.done.inj h).2

/- A body with a length, which is written as it is. -/
theorem readBack_length {σ : Parsed} (hs : σ.state = .body0) (hch : σ.chunked = false)
    (ps : List Str) (rest : Str) : ReadBack σ ps rest := by
  have hbody : ∀ b, scanBody σ b =
      andThen (exactly σ.len) (fun d => ret { σ.addBody d with state := .complete }) b := by
    intro b
    rw [scanBody, hs]
  have hplain : encode σ.chunked ps = ps.flatten := by
    rw [hch]
    rfl
  rw [ReadBack, hbody, hplain, Carried, hs]
  refine ⟨fun hlen => ⟨{ σ.addBody ps.flatten with state := .complete }, ?_, rfl⟩, fun σ' h => ?_⟩
  · rw [← hlen, andThen_of_done (exactly_append _ rest)]
    rfl
  · obtain ⟨d, mid, hexact, hret⟩ := andThen_eq_done h
    cases hret
    obtain ⟨hsplit, hlen⟩ := exactly_eq_done hexact
    rw [List.append_cancel_right hsplit]
    exact hlen

theorem readBack_chunks {σ : Parsed} (hs : σ.state = .chunkHeader0) (hch : σ.chunked = true)
    (hexpect : σ.expectCRLF = false) {ps : List Str} (hsize : ∀ p ∈ ps, p.length ≤ uint64Max)
    (rest : Str) : ReadBack σ ps rest := by
  have hstart : lineEnd { σ with state := .chunkHeader } = [] := by
    rw [lineEnd, hexpect]
    rfl
  have hbody : scanBody σ (encode σ.chunked ps ++ rest) =
      scanChunks { σ with state := .chunkHeader }
        (lineEnd { σ with state := .chunkHeader } ++ (encode true ps ++ rest)) := by
    rw [scanBody, hs, hstart, hch]
    rfl
  rw [ReadBack, hbody, Carried, hs]
  exact ⟨fun h => scanChunks_encode (σ := { σ with state := .chunkHeader }) rfl hsize h.1 h.2 rest,
    fun σ' h => scanChunks_encode_only (σ := { σ with state := .chunkHeader }) rfl hsize h⟩

theorem finishHeader_readBack {σ σ' : Parsed} (hknown : FieldsKnown σ)
    (hexpect : σ.expectCRLF = false) (hfin : finishHeader σ = .ok σ') {ps : List Str}
    (hsize : ∀ p ∈ ps, p.length ≤ uint64Max) (rest : Str) : ReadBack σ' ps rest := by
  unfold finishHeader at hfin
  split at hfin
  · cases hfin
    exact readBack_complete rfl ps rest
  split at hfin
  · rename_i hlength
    split at hfin
    · split at hfin
      · cases hfin
      · cases hfin
        have hch : σ.chunked = false := hknown.exclusive hlength
        exact readBack_length (σ := { σ with state := .body0 }) rfl hch ps rest
    · cases hfin
      exact readBack_complete rfl ps rest
  split at hfin
  · rename_i hch
    cases hfin
    exact readBack_chunks (σ := { σ with state := .chunkHeader0 }) rfl hch hexpect hsize rest
  · cases hfin
    -- a body that ends with the stream
    refine ⟨fun h => h.elim, fun σ' h => ?_⟩
    change scanToEof _ _ = _ at h
    unfold scanToEof at h
    split at h <;> cases h

theorem scanHeader_expect {m : Response} {σ : Parsed} {b rest : Str}
    (h : scanHeader (initial m).toParsed b = .done σ rest) : σ.expectCRLF = false := by
  obtain ⟨σ₁, mid, hline, hfields⟩ := andThen_eq_done h
  have hsame := (parseStartLine_eq_done hline).2
  have hkept := repeated_preserves (P := Kept σ₁) (Q := Kept σ₁) consumes_fieldStep
    (fun _ _ _ _ hp hstep => hp.trans (fieldStep_kept hstep))
    (fun _ _ _ _ hp hstep => hp.trans (fieldStep_kept hstep)) (.refl σ₁) hfields
  rw [hkept.expectCRLF, hsame]
  rfl

/- A whole response, its body as the serializer writes it. -/
theorem scanMessage_encode {m : Response} {header : Str} {σ σ' : Parsed}
    (hheader : scanHeader (initial m).toParsed header = .done σ [])
    (hfin : finishHeader σ = .ok σ') (body : Str) :
    scanMessage (initial m).toParsed (header ++ body) = scanBody σ' body := by
  rw [scanMessage_inHeader rfl,
    andThen_of_done ((incremental_scanHeader _).done_append hheader _), List.nil_append,
    afterHeader, hfin]
  rfl

theorem headerFits_of_header {m : Response} {header : Str} {σ : Parsed}
    (hheader : scanHeader (initial m).toParsed header = .done σ [])
    (hlen : header.length ≤ headerLimit) (later : Str) : HeaderFits (header ++ later) := by
  have happ := (incremental_scanHeader _).done_append hheader later
  rw [← scanHeader_nothingYet rfl] at happ
  obtain ⟨n, hn, heom⟩ := scanHeader_end rfl happ
  refine headerFits_of_find heom ?_
  rw [List.length_append, List.nil_append] at hn
  omega

/-- A response whose header the parser accepts, with its body as the serializer writes it, is
delivered with that body however its bytes arrive, and what follows it is left, exactly when
the header tells of that body and no piece of a chunked one is empty. -/
theorem delivered_iff_carried {m : Response} {header : Str} {σ σ' : Parsed}
    (hheader : scanHeader (initial m).toParsed header = .done σ [])
    (hlen : header.length ≤ headerLimit) (hfin : finishHeader σ = .ok σ') {ps : List Str}
    (hsize : ∀ p ∈ ps, p.length ≤ uint64Max) (rest : Str) :
    (∀ b chunks, b ++ chunks.flatten = header ++ (encode σ.chunked ps ++ rest) →
      ∃ left unread, asyncRead m b chunks =
          (.delivered { σ'.m with body := m.body ++ ps.flatten } left, unread) ∧
        left ++ unread.flatten = rest) ↔ Carried σ' ps := by
  obtain ⟨hknown, hbody, -⟩ := scanHeader_known hheader
  have hback := finishHeader_readBack hknown (scanHeader_expect hheader) hfin hsize rest
  obtain ⟨hsame, -⟩ := finishHeader_eq_ok hfin
  have hchunked : σ'.chunked = σ.chunked := by rw [hsame]
  have hbefore : σ'.m.body = m.body := by rw [hsame, ← hbody]
  rw [ReadBack, hchunked, hbefore, ← scanMessage_encode hheader hfin] at hback
  obtain ⟨hread, honly⟩ := hback
  constructor
  · intro hall
    obtain ⟨left, unread, hdone, hleft⟩ :=
      hall (header ++ (encode σ.chunked ps ++ rest)) [] (List.append_nil _)
    obtain ⟨read, σ'', hnone, -, hscan⟩ := receive_sound (initial_ready m _) hdone
    obtain ⟨rfl, rfl⟩ := List.append_eq_nil_iff.mp hnone.symm
    rw [List.flatten_nil, List.append_nil] at hscan hleft
    rw [hleft] at hscan
    exact honly σ'' hscan
  · rintro hcarried b chunks hbytes
    obtain ⟨σ'', hscan, hm⟩ := hread hcarried
    have hfits := headerFits_of_header hheader hlen (encode σ.chunked ps ++ rest)
    have hresponse := scanResponse_of_message hscan
    rw [← hbytes] at hresponse hfits
    rw [← hm]
    exact asyncRead_delivers hresponse hfits

/- Two pieces that arrive in three parts are read back; with a piece of no bytes between them
the read ends before the second. -/
theorem delivered_iff_carried_chunks :
    (∃ left unread, asyncRead default "HTTP/1.1 200 OK\r\nTransfer-Encoding: chu".toList
        ["nked\r\n\r\n2\r\nhi\r\n3\r".toList, "\nyou\r\n0\r\n\r\nHTTP".toList] =
          (.delivered ⟨200, 11, "OK".toList, [("Transfer-Encoding".toList, "chunked".toList)],
            "hiyou".toList⟩ left, unread) ∧ left ++ unread.flatten = "HTTP".toList) ∧
      ¬ ∀ b chunks, b ++ chunks.flatten =
          "HTTP/1.1 200 OK\r\nTransfer-Encoding: chunked\r\n\r\n".toList ++
            (encode true ["hi".toList, [], "you".toList] ++ []) →
        ∃ left unread, asyncRead default b chunks =
          (.delivered ⟨200, 11, "OK".toList, [("Transfer-Encoding".toList, "chunked".toList)],
            "hiyou".toList⟩ left, unread) ∧ left ++ unread.flatten = [] := by
  have hheader : scanHeader (initial default).toParsed
      "HTTP/1.1 200 OK\r\nTransfer-Encoding: chunked\r\n\r\n".toList =
      .done ⟨.fields, false, true, false, 0, 0, defaultBodyLimit, ⟨200, 11, "OK".toList,
        [("Transfer-Encoding".toList, "chunked".toList)], []⟩⟩ [] := by decide +kernel
  have hlen : "HTTP/1.1 200 OK\r\nTransfer-Encoding: chunked\r\n\r\n".toList.length ≤
      headerLimit := by decide
  constructor
  · have hsize : ∀ p ∈ ["hi".toList, "you".toList], p.length ≤ uint64Max := by decide
    refine (delivered_iff_carried hheader hlen rfl hsize "HTTP".toList).mpr ?_ _ _ ?_
    · exact ⟨by decide, by decide⟩
    · decide
  · have hsize : ∀ p ∈ ["hi".toList, [], "you".toList], p.length ≤ uint64Max := by decide
    refine fun hall => ?_
    have hcarried := (delivered_iff_carried hheader hlen rfl hsize []).mp hall
    exact hcarried.1 [] (List.mem_cons_of_mem _ List.mem_cons_self) rfl

end RestClient.ResponseParser
