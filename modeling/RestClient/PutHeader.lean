import RestClient.HeaderEnd

/-!
# Parsing the header piece by piece

What `put` does with the bytes of a header is part of the grammar, whatever it has been
given before; and as long as the header is within the limit, nothing else stops it.
-/

namespace RestClient.ResponseParser
open Scanning Occurrence

/- The bytes before the line of a chunk. -/
def chunkEnd (p : BasicParser) : Str := if p.expectCRLF then crlf else []

/- No line of a chunk ends among the bytes that `skip` passes over. -/
def Searched (p : BasicParser) (b : Str) : Prop :=
  (chunkEnd p).length ≤ p.skip ∧ (p.skip = (chunkEnd p).length ∨
    p.skip ≤ b.length ∧ '\r' ∉ (b.take p.skip).drop (chunkEnd p).length)

/- The line of the last chunk is there. A search from `skip` finds the end of the trailers
as one from the end of the line does. -/
structure AtLastLine (p : BasicParser) (b line eol ext : Str) : Prop where
  bytes : b = chunkEnd p ++ (line ++ '\r' :: '\n' :: eol)
  noCr : '\r' ∉ line
  size : parseHex (line ++ crlf) = some (0, ext)
  searched : ∀ later, (findEom ((b ++ later).drop p.skip)).map (· + p.skip) =
    (findEom ('\r' :: '\n' :: eol ++ later)).map (· + (chunkEnd p ++ line).length)

def LastLine (p : BasicParser) (b : Str) : Prop := ∃ line eol ext, AtLastLine p b line eol ext

/-- What holds of the parser and the bytes it has not consumed. -/
def Consistent (p : BasicParser) (b : Str) : Prop :=
  match p.state with
  | .nothingYet | .startLine | .fields => p.expectCRLF = false ∧ p.finalChunk = false
  | .body0 | .body => 0 < p.len
  | .chunkHeader0 | .chunkHeader => if p.finalChunk then LastLine p b else Searched p b
  | .chunkBody => 0 < p.len ∧ p.skip = 2 ∧ p.expectCRLF = true ∧ p.finalChunk = false
  | _ => True

theorem Searched.fresh {p : BasicParser} {b : Str} (h : p.skip = (chunkEnd p).length) :
    Searched p b := ⟨h.ge, .inl h⟩

theorem Consistent.searched {p : BasicParser} {b : Str}
    (hp : p.state = .chunkHeader0 ∨ p.state = .chunkHeader) (hf : p.finalChunk = false)
    (h : Searched p b) : Consistent p b := by
  unfold Consistent
  rcases hp with hp | hp <;> rw [hp, hf] <;> exact h

theorem Consistent.lastLine {p : BasicParser} {b : Str} (hp : p.state = .chunkHeader)
    (hf : p.finalChunk = true) (h : LastLine p b) : Consistent p b := by
  unfold Consistent
  rw [hp, hf]
  exact h

theorem chunkEnd_expected {p : BasicParser} (h : p.expectCRLF = true) : chunkEnd p = crlf := if_pos h

theorem chunkEnd_first {p : BasicParser} (h : p.expectCRLF = false) : chunkEnd p = [] := by
  rw [chunkEnd, h]
  rfl

/-- The rest of the message is the same. -/
structure Continues (p : BasicParser) (b : Str) (p' : BasicParser) (rest : Str) : Prop where
  scan : ∀ later, scanMessage p.toParsed (b ++ later) = scanMessage p'.toParsed (rest ++ later)
  consistent : Consistent p' rest

theorem Continues.trans {p p' p'' : BasicParser} {b b' b'' : Str} (h : Continues p b p' b')
    (h' : Continues p' b' p'' b'') : Continues p b p'' b'' :=
  ⟨fun later => (h.scan later).trans (h'.scan later), h'.consistent⟩

def Sound (p : BasicParser) (b : Str) : Put → Prop
  | .next p' rest => Continues p b p' rest ∧ rest.length < b.length
  | .needMore p' rest => Continues p b p' rest ∧ p'.state ≠ .complete
  | .failed _ => True

/-- The header that is left is `n` bytes long, some of which are still to arrive. -/
structure HeaderLeft (p : BasicParser) (b later : Str) (n : ℕ) (σ : Parsed) (tail : Str) :
    Prop where
  scan : scanHeader p.toParsed (b ++ later) = .done σ tail
  length : (b ++ later).length = n + tail.length
  fits : n ≤ headerLimit
  searched : p.skip = 0 ∨ p.skip + 4 ≤ n ∧ findEom (b ++ later) = some n

def Fits (p : BasicParser) (b later : Str) : Prop :=
  inHeader p.state = true → ∃ n σ tail, HeaderLeft p b later n σ tail

/-- The message is not complete. -/
def Unfinished (p : BasicParser) (b : Str) : Prop :=
  ∀ σ tail, scanMessage p.toParsed b ≠ .done σ tail

def Complete (p : BasicParser) (b later : Str) : Put → Prop
  | .next p' rest => Fits p' rest later
  | .needMore p' rest => Fits p' rest later ∧ Unfinished p' rest
  | .failed _ => Unfinished p (b ++ later)

/- Past the header nothing but the message itself decides. -/
def Settles (p : BasicParser) (b : Str) : Put → Prop
  | .next p' rest => Continues p b p' rest ∧ rest.length < b.length
  | .needMore p' rest => Continues p b p' rest ∧ Unfinished p' rest
  | .failed _ => ∀ later, Unfinished p (b ++ later)

/- Only what is left of the message matters. -/
theorem Settles.congr {p p' : BasicParser} {b : Str} {r : Put} (h : Settles p' b r)
    (hp : scanMessage p'.toParsed = scanMessage p.toParsed) : Settles p b r := by
  cases r with
  | next q rest => exact ⟨⟨fun later => hp ▸ h.1.scan later, h.1.consistent⟩, h.2⟩
  | needMore q rest => exact ⟨⟨fun later => hp ▸ h.1.scan later, h.1.consistent⟩, h.2⟩
  | failed e =>
    intro later σ tail hdone
    rw [← hp] at hdone
    exact h later σ tail hdone

theorem not_complete {p : BasicParser} {b : Str} (h : Unfinished p b) : p.state ≠ .complete := by
  intro hp
  refine h p.toParsed b ?_
  rw [scanMessage, hp]
  change scanBody p.toParsed b = _
  rw [scanBody, hp]
  rfl

theorem Settles.sound {p : BasicParser} {b : Str} {r : Put} (h : Settles p b r) : Sound p b r := by
  cases r with
  | next p' rest => exact h
  | needMore p' rest => exact ⟨h.1, not_complete h.2⟩
  | failed e => trivial

/-! ### The fields keep the rest of the state -/

/- What the fields do not touch. -/
structure Kept (σ σ' : Parsed) : Prop where
  state : σ'.state = σ.state
  expectCRLF : σ'.expectCRLF = σ.expectCRLF
  bodyLimit : σ'.bodyLimit = σ.bodyLimit
  status : σ'.m.status = σ.m.status
  body : σ'.m.body = σ.m.body
  chunked : σ.chunked = true → σ'.chunked = true

theorem Kept.refl (σ : Parsed) : Kept σ σ := ⟨rfl, rfl, rfl, rfl, rfl, id⟩

theorem Kept.trans {σ σ' σ'' : Parsed} (h : Kept σ σ') (h' : Kept σ' σ'') : Kept σ σ'' :=
  ⟨h'.state.trans h.state, h'.expectCRLF.trans h.expectCRLF, h'.bodyLimit.trans h.bodyLimit,
    h'.status.trans h.status, h'.body.trans h.body, h'.chunked ∘ h.chunked⟩

theorem doField_kept {σ σ' : Parsed} {name value : Str} (h : doField σ name value = .ok σ') :
    Kept σ σ' := by
  unfold doField at h
  split at h
  · split at h <;> cases h
    exact ⟨rfl, rfl, rfl, rfl, rfl, id⟩
  · split at h
    · split at h
      · cases h
      · split at h <;> cases h
        exact ⟨rfl, rfl, rfl, rfl, rfl, id⟩
    · split at h
      · split at h
        · cases h
        · split at h
          · cases h
          · split at h <;> cases h
            · exact ⟨rfl, rfl, rfl, rfl, rfl, fun _ => rfl⟩
            · exact .refl _
      · cases h
        exact ⟨rfl, rfl, rfl, rfl, rfl, id⟩

theorem onField_kept {σ σ' : Parsed} {f : Str × Str} (h : onField σ f = .ok σ') : Kept σ σ' := by
  unfold onField at h
  split at h
  · cases h
  · cases h
    exact ⟨rfl, rfl, rfl, rfl, rfl, id⟩

theorem fieldStep_kept {σ : Parsed} {b rest : Str} {r : Parsed ⊕ Parsed}
    (h : fieldStep σ b = .done r rest) : Kept σ (r.elim id id) := by
  obtain ⟨-, h⟩ := atLeast_eq_done h
  obtain ⟨c, b1, -, h1⟩ := andThen_eq_done h
  split at h1
  · obtain ⟨_, b2, -, h2⟩ := andThen_eq_done h1
    obtain ⟨_, b3, -, h3⟩ := andThen_eq_done h2
    obtain ⟨_, b4, -, h4⟩ := andThen_eq_done h3
    cases h4
    exact .refl σ
  · obtain ⟨f, b2, -, h2⟩ := andThen_eq_done h1
    obtain ⟨σ', b3, hdo, h3⟩ := andThen_eq_done h2
    obtain ⟨σ'', b4, hon, h4⟩ := andThen_eq_done h3
    cases h4
    exact (doField_kept (lift_eq_done hdo).1).trans (onField_kept (lift_eq_done hon).1)

theorem advance_kept (σ : Parsed) (b : Str) :
    (∀ σ' rest, advance fieldStep σ b = .ended σ' rest → Kept σ σ') ∧
      ∀ σ' rest, advance fieldStep σ b = .waiting σ' rest → Kept σ σ' := by
  refine advance_preserves ?_ ?_ (.refl σ) b
  · exact fun _ _ _ _ hs h => hs.trans (fieldStep_kept h)
  · exact fun _ _ _ _ hs h => hs.trans (fieldStep_kept h)

/-! ### The grammar from the header on -/

theorem scanMessage_inHeader {σ : Parsed} (h : inHeader σ.state = true) :
    scanMessage σ = andThen (scanHeader σ) afterHeader := by
  unfold scanMessage
  cases hσ : σ.state <;> rw [hσ] at h <;> first | rfl | cases h

theorem scanMessage_body {σ : Parsed} (h : inHeader σ.state = false) :
    scanMessage σ = scanBody σ := by
  unfold scanMessage
  cases hσ : σ.state <;> rw [hσ] at h <;> first | rfl | cases h

theorem scanHeader_fields {σ : Parsed} (h : σ.state = .fields) : scanHeader σ = scanFields σ := by
  rw [scanHeader, h]

theorem HeaderLeft.unfinished {p : BasicParser} {b later tail : Str} {n : ℕ} {σ : Parsed}
    (h : HeaderLeft p b later n σ tail) (hp : inHeader p.state = true) (hb : b.length < n) :
    Unfinished p b := by
  intro σ' tail' hdone
  rw [scanMessage_inHeader hp] at hdone
  obtain ⟨σ₁, mid, hheader, -⟩ := andThen_eq_done hdone
  have hall := (incremental_scanHeader _).done_append hheader later
  rw [h.scan] at hall
  cases hall
  have hlen := h.length
  rw [List.length_append, List.length_append] at hlen
  omega

/- What the header is followed by: a body of the kind it announces, or nothing. -/
theorem finishHeader_eq_ok {σ σ' : Parsed} (h : finishHeader σ = .ok σ') :
    σ' = { σ with state := σ'.state } ∧ inHeader σ'.state = false ∧
      (σ'.state = .complete ∨ σ'.state = .body0 ∧ 0 < σ'.len ∧ σ'.len ≤ σ'.bodyLimit ∧
          σ'.contentLength = true ∨
        σ'.state = .chunkHeader0 ∧ σ'.contentLength = false ∧ σ'.chunked = true ∨
        σ'.state = .bodyToEof0 ∧ σ'.contentLength = false ∧ σ'.chunked = false) := by
  unfold finishHeader at h
  split at h
  · cases h
    exact ⟨rfl, rfl, .inl rfl⟩
  · split at h
    · rename_i hcl
      split at h
      · rename_i hlen
        split at h
        · cases h
        · rename_i hlimit
          cases h
          exact ⟨rfl, rfl, .inr (.inl ⟨rfl, hlen, Nat.le_of_not_lt hlimit, hcl⟩)⟩
      · cases h
        exact ⟨rfl, rfl, .inl rfl⟩
    · rename_i hcl
      split at h
      · rename_i hchunked
        cases h
        exact ⟨rfl, rfl, .inr (.inr (.inl ⟨rfl, eq_false_of_ne_true hcl, hchunked⟩))⟩
      · rename_i hchunked
        cases h
        exact ⟨rfl, rfl, .inr (.inr (.inr
          ⟨rfl, eq_false_of_ne_true hcl, eq_false_of_ne_true hchunked⟩))⟩

/-! ### What stops `put` within the header -/

/- The search for the end of the header. -/
theorem maybeNeedMore_spec {skip n : ℕ} {b later : Str} (hn : n ≤ headerLimit)
    (h : skip = 0 ∨ skip + 4 ≤ n ∧ findEom (b ++ later) = some n) :
    match maybeNeedMore skip b with
    | .error _ => False
    | .ok none => True
    | .ok (some s) => b.length < n ∧ s + 4 ≤ n ∧ findEom (b ++ later) = some n := by
  unfold maybeNeedMore
  rcases h with rfl | ⟨hskip, heom⟩
  · trivial
  by_cases hzero : skip = 0
  · rw [if_pos hzero]
    trivial
  by_cases hfew : min b.length headerLimit < skip + 4
  · rw [if_neg hzero, if_pos hfew]
    exact ⟨by omega, hskip, heom⟩
  rw [if_neg hzero, if_neg hfew]
  cases hfind : findEom ((b.take (min b.length headerLimit)).drop skip) with
  | some k => trivial
  | none =>
    -- had the header arrived, the search would have found its end
    have hshort : b.length < n := by
      by_contra hle
      have hwhole : findEom (b.take (min b.length headerLimit)) = some n := by
        rw [findEom_eq]
        refine endOfFirst_within (t := b.drop (min b.length headerLimit) ++ later) ?_ ?_ ?_
        · rw [← List.append_assoc, List.take_append_drop, ← findEom_eq, heom]
        · rw [List.length_take]
          omega
        · exact List.cons_ne_nil _ _
      rw [findEom_eq, endOfFirst_drop (findEom_eq _ ▸ hwhole) hskip] at hfind
      cases hfind
    have hmin : min b.length headerLimit = b.length := by omega
    rw [hmin] at hfew ⊢
    dsimp only
    rw [if_neg (by omega)]
    exact ⟨hshort, by omega, heom⟩

/-! ### What is left of the header -/

theorem takes_scanHeader {σ : Parsed} (h : inHeader σ.state = true) : Takes 2 (scanHeader σ) := by
  have hline : Takes 2 (andThen (parseStartLine { σ with state := .startLine }) scanFields) :=
    .andThen (m := 0) (n := 2) (incremental_parseStartLine _).takes takes_scanFields
  unfold scanHeader
  cases hσ : σ.state <;> first | exact hline | exact takes_scanFields σ | rw [hσ] at h; cases h

/- What `put` makes of bytes of the header: either it knows what follows the header, or it waits
for more of it. -/
def HeaderRead (p : BasicParser) (b : Str) : Put → Prop
  | .next p' rest => p'.skip = 0 ∧ p'.finalChunk = false ∧ ∃ σ, σ.expectCRLF = false ∧
      finishHeader σ = .ok p'.toParsed ∧
        ∀ later, scanHeader p.toParsed (b ++ later) = .done σ (rest ++ later)
  | .needMore p' rest => (p'.state = .startLine ∨ p'.state = .fields) ∧ p'.expectCRLF = false ∧
      p'.finalChunk = false ∧
        ∀ later, scanHeader p.toParsed (b ++ later) = scanHeader p'.toParsed (rest ++ later)
  | .failed _ => True

theorem inHeader_of {s : State} (h : s = .startLine ∨ s = .fields) : inHeader s = true := by
  rcases h with rfl | rfl <;> rfl

/- Bytes in front of those have been read. -/
theorem HeaderRead.after {p p₁ : BasicParser} {b b₁ : Str} {r : Put} (h : HeaderRead p₁ b₁ r)
    (hscan : ∀ later, scanHeader p.toParsed (b ++ later) = scanHeader p₁.toParsed (b₁ ++ later)) :
    HeaderRead p b r := by
  cases r with
  | next p' rest =>
    obtain ⟨hskip, hfinal, σ, hcrlf, hfin, hdone⟩ := h
    exact ⟨hskip, hfinal, σ, hcrlf, hfin, fun later => (hscan later).trans (hdone later)⟩
  | needMore p' rest =>
    obtain ⟨hstate, hcrlf, hfinal, hsame⟩ := h
    exact ⟨hstate, hcrlf, hfinal, fun later => (hscan later).trans (hsame later)⟩
  | failed e => trivial

theorem HeaderRead.sound {p : BasicParser} {b : Str} {r : Put} (h : HeaderRead p b r)
    (hin : inHeader p.state = true) : Sound p b r := by
  cases r with
  | next p' rest =>
    obtain ⟨hskip, hfinal, σ, hcrlf, hfin, hdone⟩ := h
    obtain ⟨heq, hbody, hstate⟩ := finishHeader_eq_ok hfin
    have hcrlf' : p'.expectCRLF = false := by
      rw [heq]
      exact hcrlf
    refine ⟨⟨fun later => ?_, ?_⟩, ?_⟩
    · rw [scanMessage_inHeader hin, scanMessage_body hbody, andThen_of_done (hdone later),
        afterHeader, hfin]
      rfl
    · rcases hstate with h | ⟨h, hlen, -⟩ | ⟨h, -⟩ | ⟨h, -⟩
      · rw [Consistent, h]
        trivial
      · rw [Consistent, h]
        exact hlen
      · refine Consistent.searched (.inl h) hfinal (.fresh ?_)
        rw [chunkEnd_first hcrlf', hskip]
        rfl
      · rw [Consistent, h]
        trivial
    · have hlen := takes_scanHeader hin _ _ _ (hdone [])
      rw [List.append_nil, List.append_nil] at hlen
      omega
  | needMore p' rest =>
    obtain ⟨hstate, hcrlf, hfinal, hsame⟩ := h
    refine ⟨⟨fun later => ?_, ?_⟩, ?_⟩
    · rw [scanMessage_inHeader hin, scanMessage_inHeader (inHeader_of hstate), andThen, andThen,
        hsame]
    · unfold Consistent
      rcases hstate with h | h <;> rw [h] <;> exact ⟨hcrlf, hfinal⟩
    · rcases hstate with h | h <;> rw [h] <;> decide
  | failed e => trivial

/-! ### `put` in the fields -/

/- The window that `put` parses, and what is behind it. -/
theorem window_append (b later : Str) :
    b.take headerLimit ++ (b.drop headerLimit ++ later) = b ++ later := by
  rw [← List.append_assoc, List.take_append_drop]

theorem window_length (b : Str) :
    (b.take headerLimit).length + (b.drop headerLimit).length = b.length := by
  rw [← List.length_append, List.take_append_drop]

theorem putFields_header {p : BasicParser} (hp : p.state = .fields) (hcrlf : p.expectCRLF = false)
    (hfinal : p.finalChunk = false) (b : Str) : HeaderRead p b (putFields p b) := by
  unfold putFields
  cases maybeNeedMore p.skip b with
  | error e => trivial
  | ok skip =>
    cases skip with
    | some skip => exact ⟨.inr hp, hcrlf, hfinal, fun later => rfl⟩
    | none =>
      dsimp only
      cases hadv : advance fieldStep p.toParsed (b.take headerLimit) with
      | failed e => trivial
      | waiting σ rest =>
        have hkept := (advance_kept _ _).2 _ _ hadv
        have hσ : σ.state = .fields := hkept.state.trans hp
        dsimp only
        unfold headerNeedsMore
        split
        · trivial
        · refine ⟨.inr hσ, hkept.expectCRLF.trans hcrlf, hfinal, fun later => ?_⟩
          have hwait := (repeated_of_waiting consumes_fieldStep incremental_fieldStep hadv
            (b.drop headerLimit ++ later)).1
          rw [window_append] at hwait
          rw [scanHeader_fields hp, scanHeader_fields hσ, List.append_assoc]
          exact hwait
      | ended σ rest =>
        have hkept := (advance_kept _ _).1 _ _ hadv
        dsimp only
        cases hfin : finishHeader σ with
        | error e => trivial
        | ok σ' =>
          refine ⟨rfl, hfinal, σ, hkept.expectCRLF.trans hcrlf, hfin, fun later => ?_⟩
          have hend := repeated_of_ended consumes_fieldStep incremental_fieldStep hadv
            (b.drop headerLimit ++ later)
          rw [window_append] at hend
          rw [scanHeader_fields hp, List.append_assoc]
          exact hend

/- As long as the header is not all there, its end has not been passed over. -/
theorem HeaderLeft.ofFields {p : BasicParser} {b later tail : Str} {n : ℕ} {σ : Parsed}
    (hp : p.state = .fields) (hscan : scanFields p.toParsed (b ++ later) = .done σ tail)
    (hlen : (b ++ later).length = n + tail.length) (hfits : n ≤ headerLimit) (hb : b.length < n)
    (hskip : p.skip = if 3 ≤ b.length then b.length - 3 else 0) :
    HeaderLeft p b later n σ tail := by
  refine ⟨by rw [scanHeader_fields hp, hscan], hlen, hfits, ?_⟩
  by_cases hfew : p.skip = 0
  · exact .inl hfew
  · have hlong : 3 ≤ b.length := by
      by_contra hshort
      exact hfew (by rw [hskip, if_neg hshort])
    rw [if_pos hlong] at hskip
    obtain ⟨k, hk, heom⟩ := scanFields_end hscan
    have hkn : k = n := by omega
    rw [hkn, findEom_eq] at heom
    have hdrop := endOfFirst_drop (s := 2) heom (show 2 + 4 ≤ n + 2 by omega)
    rw [← findEom_eq] at hdrop
    exact .inr ⟨by omega, hdrop⟩

/- Fields that cannot be read on end later. -/
theorem fields_short {σ σ' : Parsed} {b later tail : Str} {n : ℕ}
    (hmore : fieldStep σ b = .more) (hscan : scanFields σ (b ++ later) = .done σ' tail)
    (hlen : (b ++ later).length = n + tail.length) : b.length < n := by
  by_contra hle
  obtain ⟨k, hk, heom⟩ := scanFields_end hscan
  have hkn : k = n := by omega
  have hnone := scanFields_eq_more (repeated_more hmore : scanFields σ b = .more)
  rw [findEom_eq] at heom hnone
  have hwithin := endOfFirst_within (b := '\r' :: '\n' :: b) heom
    (by rw [List.length_cons, List.length_cons]; omega) (List.cons_ne_nil _ _)
  rw [hnone] at hwithin
  cases hwithin

/- A header that fits is not given up before it is searched for its end, and waited for. -/
theorem HeaderLeft.gate {p : BasicParser} {b later tail : Str} {n : ℕ} {σ : Parsed}
    (h : HeaderLeft p b later n σ tail) (hin : inHeader p.state = true) :
    match maybeNeedMore p.skip b with
    | .error _ => False
    | .ok none => True
    | .ok (some s) => Complete p b later (.needMore { p with skip := s } b) := by
  have hgate := maybeNeedMore_spec h.fits h.searched
  cases hmore : maybeNeedMore p.skip b with
  | error e =>
    rw [hmore] at hgate
    exact hgate
  | ok skip =>
    rw [hmore] at hgate
    cases skip with
    | none => trivial
    | some skip =>
      have hleft : HeaderLeft { p with skip := skip } b later n σ tail :=
        ⟨h.scan, h.length, h.fits, .inr hgate.2⟩
      exact ⟨fun _ => ⟨n, σ, tail, hleft⟩, hleft.unfinished hin hgate.1⟩

/- The fields have been read as far as they have come. -/
theorem fields_wait {p : BasicParser} {b later rest tail : Str} {n : ℕ} {σ σ' : Parsed}
    (hp : p.state = .fields) (h : HeaderLeft p b later n σ tail)
    (hadv : advance fieldStep p.toParsed (b.take headerLimit) = .waiting σ' rest) :
    Complete p b later (headerNeedsMore { p with toParsed := σ', skip := 0 } b.length
      (rest ++ b.drop headerLimit)) := by
  have hσ : σ'.state = .fields := ((advance_kept _ _).2 _ _ hadv).state.trans hp
  obtain ⟨hwait, hstep, hrest⟩ := repeated_of_waiting consumes_fieldStep
    incremental_fieldStep hadv (b.drop headerLimit ++ later)
  have hscan := h.scan
  rw [window_append] at hwait
  rw [scanHeader_fields hp, scanFields, hwait] at hscan
  have hlen := h.length
  have htake := window_length b
  have hconsumed : (rest ++ (b.drop headerLimit ++ later)).length =
      (n - ((b.take headerLimit).length - rest.length)) + tail.length := by
    have hle := (incremental_scanFields σ').takes _ _ _ hscan
    rw [List.length_append, List.length_append] at hle ⊢
    rw [List.length_append] at hlen
    omega
  have hshort := fields_short hstep hscan hconsumed
  have hfits := h.fits
  rw [List.length_take] at hconsumed hshort
  have hlimit : ¬ headerLimit ≤ b.length := by omega
  have hdrop : b.drop headerLimit = [] := List.drop_eq_nil_of_le (by omega)
  rw [hdrop, List.nil_append] at hscan hconsumed
  have hleft := HeaderLeft.ofFields (p := { p with
    toParsed := σ', skip := if 3 ≤ rest.length then rest.length - 3 else 0 })
    hσ hscan hconsumed (by omega) hshort rfl
  unfold headerNeedsMore
  rw [if_neg hlimit, hdrop, List.append_nil]
  exact ⟨fun _ => ⟨_, σ, tail, hleft⟩, hleft.unfinished (by rw [hσ]; rfl) hshort⟩

/- The header is there, and decides what follows. -/
theorem header_over {p : BasicParser} {b later tail : Str} {σ : Parsed}
    (hin : inHeader p.state = true)
    (hscan : scanHeader p.toParsed (b ++ later) = .done σ tail) (skip : ℕ) (rest : Str) :
    Complete p b later (match finishHeader σ with
      | .error e => .failed e
      | .ok σ' => .next { p with toParsed := σ', skip := skip } rest) := by
  cases hfin : finishHeader σ with
  | error e =>
    intro σ'' tail' hdone
    rw [scanMessage_inHeader hin, andThen_of_done hscan, afterHeader, hfin] at hdone
    cases hdone
  | ok σ' =>
    intro hheader
    rw [(finishHeader_eq_ok hfin).2.1] at hheader
    cases hheader

theorem putFields_complete {p : BasicParser} {b later tail : Str} {n : ℕ} {σ : Parsed}
    (hp : p.state = .fields) (h : HeaderLeft p b later n σ tail) :
    Complete p b later (putFields p b) := by
  have hin : inHeader p.state = true := by rw [hp]; rfl
  have hgate := h.gate hin
  unfold putFields
  cases hmore : maybeNeedMore p.skip b with
  | error e =>
    rw [hmore] at hgate
    exact absurd hgate id
  | ok skip =>
    rw [hmore] at hgate
    cases skip with
    | some skip => exact hgate
    | none =>
      dsimp only
      cases hadv : advance fieldStep p.toParsed (b.take headerLimit) with
      | failed e =>
        have hscan := h.scan
        have hfail := repeated_of_failed consumes_fieldStep incremental_fieldStep hadv
          (b.drop headerLimit ++ later)
        rw [window_append] at hfail
        rw [scanHeader_fields hp, scanFields, hfail] at hscan
        cases hscan
      | waiting σ' rest => exact fields_wait hp h hadv
      | ended σ' rest =>
        have hend : scanFields p.toParsed (b.take headerLimit ++ (b.drop headerLimit ++ later)) =
            .done σ' (rest ++ (b.drop headerLimit ++ later)) :=
          repeated_of_ended consumes_fieldStep incremental_fieldStep hadv _
        rw [window_append, ← scanHeader_fields hp] at hend
        exact header_over hin hend 0 _

/-! ### `put` in the start line -/

theorem scanHeader_startLine {σ : Parsed} (h : σ.state = .startLine) :
    scanHeader σ = andThen (parseStartLine σ) scanFields := by
  cases σ
  cases h
  rfl

/- The fields follow the start line. -/
theorem scanHeader_line {σ σ' : Parsed} {b rest : Str} (h : σ.state = .startLine)
    (hline : parseStartLine σ (b.take headerLimit) = .done σ' rest) :
    σ'.state = .fields ∧ ∀ later,
      scanHeader σ (b ++ later) = scanHeader σ' (rest ++ b.drop headerLimit ++ later) := by
  have hσ : σ'.state = .fields := by rw [(parseStartLine_eq_done hline).2]
  refine ⟨hσ, fun later => ?_⟩
  have happ := (incremental_parseStartLine _).done_append hline (b.drop headerLimit ++ later)
  rw [window_append] at happ
  rw [scanHeader_startLine h, scanHeader_fields hσ, List.append_assoc, andThen_of_done happ]

theorem putStartLine_header {p : BasicParser} (hp : p.state = .startLine)
    (hcrlf : p.expectCRLF = false) (hfinal : p.finalChunk = false) (b : Str) :
    HeaderRead p b (putStartLine p b) := by
  unfold putStartLine
  cases maybeNeedMore p.skip b with
  | error e => trivial
  | ok skip =>
    cases skip with
    | some skip => exact ⟨.inl hp, hcrlf, hfinal, fun later => rfl⟩
    | none =>
      dsimp only
      cases hline : parseStartLine p.toParsed (b.take headerLimit) with
      | failed e => trivial
      | more =>
        dsimp only
        unfold headerNeedsMore
        split
        · trivial
        · exact ⟨.inl hp, hcrlf, hfinal, fun later => rfl⟩
      | done σ rest =>
        obtain ⟨hσ, hscan⟩ := scanHeader_line hp hline
        have hcrlf' : σ.expectCRLF = false := by
          rw [(parseStartLine_eq_done hline).2]
          exact hcrlf
        dsimp only
        split
        · rename_i hnil
          rw [hnil] at hscan
          exact ⟨.inr hσ, hcrlf', hfinal, hscan⟩
        · exact (putFields_header (p := { p with toParsed := σ, skip := 0 }) hσ hcrlf' hfinal
            _).after hscan

/- The start line is not there, and so the header is not. -/
theorem startLine_wait {p : BasicParser} {b later tail : Str} {n : ℕ} {σ : Parsed}
    (hp : p.state = .startLine) (h : HeaderLeft p b later n σ tail)
    (hline : parseStartLine p.toParsed (b.take headerLimit) = .more) :
    Complete p b later (headerNeedsMore { p with skip := 0 } b.length b) := by
  have hscan := h.scan
  rw [scanHeader_startLine hp] at hscan
  obtain ⟨σ₁, mid, hall, hfields⟩ := andThen_eq_done hscan
  have htwo := takes_scanFields _ _ _ _ hfields
  rw [← window_append] at hall
  have hfew : mid.length ≤ (b.drop headerLimit ++ later).length := by
    by_contra hlt
    exact (incremental_parseStartLine _).prompt _ _ _ _ hall (by omega) hline
  obtain ⟨k, hk, heom⟩ := scanHeader_end hp h.scan
  have hlen := h.length
  have hfits := h.fits
  have htake := window_length b
  rw [List.length_append] at hfew hlen hk
  rw [List.length_take] at htake
  have hleft : HeaderLeft { p with
      skip := if 3 ≤ b.length then b.length - 3 else 0 } b later n σ tail := by
    refine ⟨h.scan, h.length, h.fits, ?_⟩
    have hkn : k = n := by omega
    rw [hkn] at heom
    dsimp only
    split
    · exact .inr ⟨by omega, heom⟩
    · exact .inl rfl
  unfold headerNeedsMore
  rw [if_neg (by omega)]
  exact ⟨fun _ => ⟨n, σ, tail, hleft⟩, hleft.unfinished (by rw [hp]; rfl) (by omega)⟩

/- The start line has been read. -/
theorem HeaderLeft.ofLine {p : BasicParser} {b later rest tail : Str} {n : ℕ} {σ σ' : Parsed}
    (hp : p.state = .startLine) (h : HeaderLeft p b later n σ tail)
    (hline : parseStartLine p.toParsed (b.take headerLimit) = .done σ' rest) :
    ∃ n', 2 ≤ n' ∧ HeaderLeft { p with toParsed := σ', skip := 0 }
      (rest ++ b.drop headerLimit) later n' σ tail := by
  obtain ⟨hσ, hsame⟩ := scanHeader_line hp hline
  have hscan := h.scan
  rw [hsame] at hscan
  have htwo := takes_scanHeader (by rw [hσ]; rfl) _ _ _ hscan
  have hle := (incremental_parseStartLine _).takes _ _ _ hline
  have hlen := h.length
  have hfits := h.fits
  have htake := window_length b
  rw [List.length_append, List.length_append] at htwo
  rw [List.length_append] at hlen
  refine ⟨(rest ++ b.drop headerLimit ++ later).length - tail.length, ?_, hscan, ?_, ?_, .inl rfl⟩
  all_goals
    rw [List.length_append, List.length_append]
    omega

/- Only what is left of the header matters. -/
theorem Complete.after {p p₁ : BasicParser} {b b₁ later : Str} {r : Put}
    (h : Complete p₁ b₁ later r)
    (hscan : scanMessage p.toParsed (b ++ later) = scanMessage p₁.toParsed (b₁ ++ later)) :
    Complete p b later r := by
  cases r with
  | next p' rest => exact h
  | needMore p' rest => exact h
  | failed e =>
    intro σ tail hdone
    rw [hscan] at hdone
    exact h σ tail hdone

theorem putStartLine_complete {p : BasicParser} {b later tail : Str} {n : ℕ} {σ : Parsed}
    (hp : p.state = .startLine) (h : HeaderLeft p b later n σ tail) :
    Complete p b later (putStartLine p b) := by
  have hin : inHeader p.state = true := by rw [hp]; rfl
  have hgate := h.gate hin
  unfold putStartLine
  cases hmore : maybeNeedMore p.skip b with
  | error e =>
    rw [hmore] at hgate
    exact absurd hgate id
  | ok skip =>
    rw [hmore] at hgate
    cases skip with
    | some skip => exact hgate
    | none =>
      dsimp only
      cases hline : parseStartLine p.toParsed (b.take headerLimit) with
      | failed e =>
        have hscan := h.scan
        have hfail := (incremental_parseStartLine _).failed_append hline
          (b.drop headerLimit ++ later)
        rw [window_append] at hfail
        rw [scanHeader_startLine hp, andThen, hfail] at hscan
        cases hscan
      | more => exact startLine_wait hp h hline
      | done σ' rest =>
        obtain ⟨hσ, hsame⟩ := scanHeader_line hp hline
        obtain ⟨n', htwo, hleft⟩ := h.ofLine hp hline
        dsimp only
        split
        · rename_i hnil
          rw [hnil] at hleft
          exact ⟨fun _ => ⟨n', σ, tail, hleft⟩, hleft.unfinished (by rw [hσ]; rfl)
            (Nat.lt_of_lt_of_le Nat.zero_lt_two htwo)⟩
        · refine (putFields_complete (p := { p with toParsed := σ', skip := 0 }) hσ hleft).after ?_
          rw [scanMessage_inHeader hin, scanMessage_inHeader (by rw [hσ]; rfl), andThen, andThen,
            hsame]

end RestClient.ResponseParser
