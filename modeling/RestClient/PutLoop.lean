import RestClient.PutChunks

/-!
# Parsing a message piece by piece

`put` on the bytes in the buffer, again and again as more arrive: the rest of the message
stays what the grammar makes of it, and where the header fits the reading goes on until the
message is complete.
-/

namespace RestClient.ResponseParser
open Scanning Occurrence

/-! ### The `switch` -/

theorem scanMessage_nothingYet {σ : Parsed} (h : σ.state = .nothingYet) :
    scanMessage { σ with state := .startLine } = scanMessage σ := by
  cases σ
  cases h
  rfl

theorem scanHeader_nothingYet {σ : Parsed} (h : σ.state = .nothingYet) :
    scanHeader { σ with state := .startLine } = scanHeader σ := by
  cases σ
  cases h
  rfl

theorem scanMessage_body0 {σ : Parsed} (h : σ.state = .body0) :
    scanMessage { σ with state := .body } = scanMessage σ := by
  cases σ
  cases h
  rfl

theorem scanMessage_bodyToEof0 {σ : Parsed} (h : σ.state = .bodyToEof0) :
    scanMessage { σ with state := .bodyToEof } = scanMessage σ := by
  cases σ
  cases h
  rfl

theorem scanMessage_chunkHeader0 {σ : Parsed} (h : σ.state = .chunkHeader0) :
    scanMessage { σ with state := .chunkHeader } = scanMessage σ := by
  cases σ
  cases h
  rfl

theorem Consistent.chunk {p : BasicParser} {b : Str}
    (hp : p.state = .chunkHeader0 ∨ p.state = .chunkHeader) (h : Consistent p b) :
    Consistent { p with state := .chunkHeader } b := by
  have hinv : if p.finalChunk then LastLine p b else Searched p b := by
    unfold Consistent at h
    rcases hp with hp | hp <;> rw [hp] at h <;> exact h
  by_cases hf : p.finalChunk = true
  · rw [if_pos hf] at hinv
    obtain ⟨line, eol, ext, hat⟩ := hinv
    exact .lastLine rfl hf ⟨line, eol, ext, hat.bytes, hat.noCr, hat.size, hat.searched⟩
  · rw [if_neg hf] at hinv
    exact .searched (.inr rfl) (eq_false_of_ne_true hf) hinv

theorem dispatch_settles {p : BasicParser} {b : Str} (hin : inHeader p.state = false)
    (hc : p.state ≠ .complete) (hcons : Consistent p b) (hb : b ≠ []) :
    Settles p b (dispatch p b) := by
  unfold dispatch
  have hinv := hcons
  unfold Consistent at hinv
  split <;> rename_i hp <;> rw [hp] at hin hinv
  · cases hin
  · cases hin
  · cases hin
  · exact (putBody_settles (p := { p with state := .body }) rfl hinv hb).congr
      (scanMessage_body0 hp)
  · have h := putBody_settles (p := { p with state := .body }) rfl hinv hb
    exact h.congr (by rw [← hp])
  · exact (putBodyToEof_settles (p := { p with state := .bodyToEof }) rfl hb).congr
      (scanMessage_bodyToEof0 hp)
  · have h := putBodyToEof_settles (p := { p with state := .bodyToEof }) rfl hb
    exact h.congr (by rw [← hp])
  · exact (putChunkHeader_settles rfl (hcons.chunk (.inl hp))).congr (scanMessage_chunkHeader0 hp)
  · have h := putChunkHeader_settles rfl (hcons.chunk (.inr hp))
    exact h.congr (by rw [← hp])
  · exact putChunkBody_settles hp hcons hb
  · exact absurd hp hc

theorem Consistent.header {p : BasicParser} {b : Str} (hin : inHeader p.state = true)
    (h : Consistent p b) : p.expectCRLF = false ∧ p.finalChunk = false := by
  unfold Consistent at h
  cases hp : p.state <;> rw [hp] at h hin <;> first | exact h | cases hin

theorem dispatch_header {p : BasicParser} {b : Str} (hin : inHeader p.state = true)
    (hcons : Consistent p b) (hb : b ≠ []) : HeaderRead p b (dispatch p b) := by
  obtain ⟨hcrlf, hfinal⟩ := hcons.header hin
  unfold dispatch
  cases hp : p.state <;> rw [hp] at hin <;> try cases hin
  · dsimp only
    rw [if_neg hb]
    refine (putStartLine_header (p := { p with state := .startLine }) rfl hcrlf hfinal b).after ?_
    exact fun later => congrFun (scanHeader_nothingYet hp).symm _
  · exact putStartLine_header hp hcrlf hfinal b
  · exact putFields_header hp hcrlf hfinal b

theorem dispatch_sound {p : BasicParser} {b : Str} (hc : p.state ≠ .complete)
    (hcons : Consistent p b) (hb : b ≠ []) : Sound p b (dispatch p b) := by
  by_cases hin : inHeader p.state = true
  · exact (dispatch_header hin hcons hb).sound hin
  · exact (dispatch_settles (eq_false_of_ne_true hin) hc hcons hb).sound

/-! ### Past the header -/

/- What is announced by the header decides how the body is read. -/
def Announced (p : BasicParser) : Prop :=
  match p.state with
  | .body0 | .body => p.contentLength = true
  | .chunkHeader0 | .chunkHeader | .chunkBody => p.chunked = true
  | _ => True

def Put.All (P : BasicParser → Prop) : Put → Prop
  | .next p _ | .needMore p _ => P p
  | .failed _ => True

/- The header is behind, and what follows it was announced: whether it `ends` with the stream. -/
structure PastHeader (ends : Bool) (p : BasicParser) : Prop where
  body : inHeader p.state = false
  announced : Announced p
  ends : p.state ≠ .complete → endsWithStream p.state = ends

theorem announced_inHeader {p : BasicParser} (h : inHeader p.state = true) : Announced p := by
  unfold Announced
  cases hp : p.state <;> first | trivial | rw [hp] at h; cases h

/- The parser has been given a byte. -/
def Started (p : BasicParser) : Prop := Announced p ∧ p.state ≠ .nothingYet

theorem HeaderRead.started {p : BasicParser} {b : Str} {r : Put} (h : HeaderRead p b r) :
    r.All Started := by
  cases r with
  | next p' rest =>
    obtain ⟨-, -, σ, -, hfin, -⟩ := h
    obtain ⟨-, -, hstate⟩ := finishHeader_eq_ok hfin
    show Started p'
    unfold Started Announced
    rcases hstate with h | ⟨h, -, -, hcl⟩ | ⟨h, -, hch⟩ | ⟨h, -⟩ <;> rw [h]
    · exact ⟨trivial, nofun⟩
    · exact ⟨hcl, nofun⟩
    · exact ⟨hch, nofun⟩
    · exact ⟨trivial, nofun⟩
  | needMore p' rest =>
    obtain ⟨hstate, -⟩ := h
    refine ⟨announced_inHeader (inHeader_of hstate), ?_⟩
    rcases hstate with h | h <;> rw [h] <;> exact nofun
  | failed e => trivial

theorem past_chunkHeader {p : BasicParser} (hp : p.state = .chunkHeader) (hc : p.chunked = true) :
    PastHeader false p := by
  refine ⟨by rw [hp]; rfl, ?_, fun _ => by rw [hp]; rfl⟩
  rw [Announced, hp]
  exact hc

theorem putFinalChunk_past {p : BasicParser} (hp : p.state = .chunkHeader) (hc : p.chunked = true)
    (b ext eol : Str) : (putFinalChunk p b ext eol).All (PastHeader false) := by
  unfold putFinalChunk
  split
  · exact past_chunkHeader hp hc
  · split
    · trivial
    · exact past_chunkHeader hp hc
    · dsimp only
      split
      · trivial
      · split
        · trivial
        · rename_i hadv
          have hkept := (advance_kept _ _).2 _ _ hadv
          exact past_chunkHeader (hkept.state.trans hp) (hkept.chunked hc)
        · exact ⟨rfl, trivial, fun h => absurd rfl h⟩

theorem putChunkHeader_past {p : BasicParser} (hp : p.state = .chunkHeader) (hc : p.chunked = true)
    (b : Str) : (putChunkHeader p b).All (PastHeader false) := by
  unfold putChunkHeader
  by_cases hf : p.finalChunk = true
  · rw [if_pos hf]
    dsimp only
    split
    · exact putFinalChunk_past hp hc _ _ _
    · trivial
  rw [if_neg hf]
  by_cases hfew : b.length < p.skip + 2
  · rw [if_pos hfew]
    exact past_chunkHeader hp hc
  rw [if_neg hfew]
  cases if p.expectCRLF then parseCrlf b else some b with
  | none => trivial
  | some digits =>
    dsimp only
    split
    · trivial
    · exact past_chunkHeader hp hc
    · split
      · trivial
      · split
        · exact putFinalChunk_past (p := { p with skip := _, finalChunk := true }) hp hc _ _ _
        · split
          · trivial
          · split
            · trivial
            · exact past_chunkHeader hp hc
            · split
              · trivial
              · exact ⟨rfl, hc, fun _ => rfl⟩

theorem putBody_past {p : BasicParser} (hp : p.state = .body) (hcl : p.contentLength = true)
    (b : Str) : (putBody p b).All (PastHeader false) := by
  unfold putBody Put.All
  dsimp only
  split
  · exact ⟨rfl, trivial, fun h => absurd rfl h⟩
  · have hstate := (addBody_state p.toParsed (b.take p.len)).trans hp
    refine ⟨by rw [hstate]; rfl, ?_, fun _ => by rw [hstate]; rfl⟩
    rw [Announced, hstate]
    exact hcl

theorem putChunkBody_past {p : BasicParser} (hp : p.state = .chunkBody) (hc : p.chunked = true)
    (b : Str) : (putChunkBody p b).All (PastHeader false) := by
  unfold putChunkBody Put.All
  dsimp only
  split
  · exact past_chunkHeader rfl hc
  · have hstate := (addBody_state p.toParsed (b.take p.len)).trans hp
    refine ⟨by rw [hstate]; rfl, ?_, fun _ => by rw [hstate]; rfl⟩
    rw [Announced, hstate]
    exact hc

/- A body that ends with the stream takes all that has come. -/
theorem putBodyToEof_past {p : BasicParser} (hp : p.state = .bodyToEof) (b : Str) :
    (putBodyToEof p b).All (PastHeader true) := by
  unfold putBodyToEof
  split
  · trivial
  · have hstate : (p.toParsed.toEof b).state = .bodyToEof := hp
    refine ⟨by rw [hstate]; rfl, ?_, fun _ => by rw [hstate]; rfl⟩
    rw [Announced, hstate]
    trivial

theorem dispatch_past {p : BasicParser} {ends : Bool} (h : PastHeader ends p)
    (hc : p.state ≠ .complete) (b : Str) : (dispatch p b).All (PastHeader ends) := by
  obtain ⟨hin, hann, hends⟩ := h
  have hends := hends hc
  unfold Announced at hann
  unfold dispatch
  split <;> rename_i hp <;> rw [hp] at hin hann hends <;> subst hends
  · cases hin
  · cases hin
  · cases hin
  · exact putBody_past (p := { p with state := .body }) rfl hann b
  · exact putBody_past (p := { p with state := .body }) rfl hann b
  · exact putBodyToEof_past (p := { p with state := .bodyToEof }) rfl b
  · exact putBodyToEof_past (p := { p with state := .bodyToEof }) rfl b
  · exact putChunkHeader_past (p := { p with state := .chunkHeader }) rfl hann b
  · exact putChunkHeader_past (p := { p with state := .chunkHeader }) rfl hann b
  · exact putChunkBody_past hp hann b
  · exact absurd hp hc

theorem PastHeader.started {ends : Bool} {p : BasicParser} (h : PastHeader ends p) : Started p := by
  refine ⟨h.announced, fun hp => ?_⟩
  have hin := h.body
  rw [hp] at hin
  cases hin

theorem dispatch_started {p : BasicParser} {b : Str} (hc : p.state ≠ .complete)
    (hcons : Consistent p b) (h : Announced p) (hb : b ≠ []) : (dispatch p b).All Started := by
  by_cases hin : inHeader p.state = true
  · exact (dispatch_header hin hcons hb).started
  · have hpast := dispatch_past ⟨eq_false_of_ne_true hin, h, fun _ => rfl⟩ hc b
    cases hr : dispatch p b with
    | next p' rest =>
      rw [hr] at hpast
      exact hpast.started
    | needMore p' rest =>
      rw [hr] at hpast
      exact hpast.started
    | failed e => trivial

/-! ### The end of the stream -/

/- The response that the end of the stream completes stays the same, and a body that ends there
is never waited for with bytes of it left. -/
def KeepsEnd (p : BasicParser) (b : Str) : Put → Prop
  | .next p' rest =>
    ∀ later, scanToEnd p.toParsed (b ++ later) = scanToEnd p'.toParsed (rest ++ later)
  | .needMore p' rest => endsWithStream p'.state = false ∧
      ∀ later, scanToEnd p.toParsed (b ++ later) = scanToEnd p'.toParsed (rest ++ later)
  | .failed _ => True

theorem KeepsEnd.after {p p₁ : BasicParser} {b b₁ : Str} {r : Put} (h : KeepsEnd p₁ b₁ r)
    (hsame : ∀ later, scanToEnd p.toParsed (b ++ later) = scanToEnd p₁.toParsed (b₁ ++ later)) :
    KeepsEnd p b r := by
  cases r with
  | next p' rest => exact fun later => (hsame later).trans (h later)
  | needMore p' rest => exact ⟨h.1, fun later => (hsame later).trans (h.2 later)⟩
  | failed e => trivial

theorem scanToEnd_body {σ : Parsed} (h : inHeader σ.state = false) : scanToEnd σ = bodyToEnd σ := by
  funext b
  rw [scanToEnd, h]
  rfl

theorem bodyToEnd_none {σ : Parsed} (h : endsWithStream σ.state = false) (b : Str) :
    bodyToEnd σ b = none := by
  rw [bodyToEnd, h]
  rfl

theorem HeaderRead.keepsEnd {p : BasicParser} {b : Str} {r : Put} (h : HeaderRead p b r)
    (hin : inHeader p.state = true) : KeepsEnd p b r := by
  cases r with
  | next p' rest =>
    obtain ⟨-, -, σ, -, hfin, hdone⟩ := h
    intro later
    rw [scanToEnd, if_pos hin, hdone, scanToEnd_body (finishHeader_eq_ok hfin).2.1]
    dsimp only
    rw [hfin]
  | needMore p' rest =>
    obtain ⟨hstate, -, -, hsame⟩ := h
    refine ⟨by rcases hstate with h | h <;> rw [h] <;> rfl, fun later => ?_⟩
    rw [scanToEnd, scanToEnd, if_pos hin, if_pos (inHeader_of hstate), hsame]
  | failed e => trivial

/- Neither a body with a length nor chunks are completed so. -/
theorem PastHeader.keepsEnd {p : BasicParser} {b : Str} {r : Put}
    (hp : inHeader p.state = false) (hends : endsWithStream p.state = false)
    (h : r.All (PastHeader false)) : KeepsEnd p b r := by
  have hnot : ∀ {q : BasicParser}, PastHeader false q → endsWithStream q.state = false := by
    intro q hq
    by_cases hc : q.state = .complete
    · rw [hc]
      rfl
    · exact hq.ends hc
  have hsame : ∀ {q : BasicParser} {rest : Str}, PastHeader false q →
      ∀ later, scanToEnd p.toParsed (b ++ later) = scanToEnd q.toParsed (rest ++ later) := by
    intro q rest hq later
    rw [scanToEnd_body hp, scanToEnd_body hq.body, bodyToEnd_none hends, bodyToEnd_none (hnot hq)]
  cases r with
  | next p' rest => exact hsame h
  | needMore p' rest => exact ⟨hnot h, hsame h⟩
  | failed e => trivial

theorem bodyToEnd_toEof {σ : Parsed} {b : Str} (hs : endsWithStream σ.state = true)
    (hb : b.length ≤ σ.bodyLimit) (later : Str) :
    bodyToEnd σ (b ++ later) = bodyToEnd (σ.toEof b) later := by
  have hlimit : (b ++ later).length ≤ σ.bodyLimit ↔ later.length ≤ (σ.toEof b).bodyLimit := by
    rw [List.length_append]
    show _ ↔ later.length ≤ σ.bodyLimit - b.length
    omega
  have hs' : endsWithStream (σ.toEof b).state = true := hs
  have hm : (σ.toEof (b ++ later)).m = ((σ.toEof b).toEof later).m := by
    simp only [Parsed.toEof, List.append_assoc]
  unfold bodyToEnd
  rw [hs, hs', decide_eq_decide.mpr hlimit, hm]

theorem putBodyToEof_keepsEnd {p : BasicParser} (hp : p.state = .bodyToEof) (b : Str) :
    KeepsEnd p b (putBodyToEof p b) := by
  unfold putBodyToEof
  split
  · trivial
  · rename_i hlimit
    intro later
    have hin : inHeader p.state = false := by rw [hp]; rfl
    have hends : endsWithStream p.state = true := by rw [hp]; rfl
    have hin' : inHeader (p.toParsed.toEof b).state = false := hin
    calc scanToEnd p.toParsed (b ++ later)
        _ = bodyToEnd p.toParsed (b ++ later) := congrFun (scanToEnd_body hin) _
        _ = bodyToEnd (p.toParsed.toEof b) later :=
          bodyToEnd_toEof hends (Nat.le_of_not_lt hlimit) later
        _ = scanToEnd (p.toParsed.toEof b) later := congrFun (scanToEnd_body hin').symm _

theorem scanToEnd_bodyToEof0 {σ : Parsed} (h : σ.state = .bodyToEof0) :
    scanToEnd { σ with state := .bodyToEof } = scanToEnd σ := by
  cases σ
  cases h
  rfl

theorem dispatch_keepsEnd {p : BasicParser} {b : Str} (hc : p.state ≠ .complete)
    (hcons : Consistent p b) (hann : Announced p) (hb : b ≠ []) : KeepsEnd p b (dispatch p b) := by
  by_cases hin : inHeader p.state = true
  · exact (dispatch_header hin hcons hb).keepsEnd hin
  have hin := eq_false_of_ne_true hin
  cases hends : endsWithStream p.state with
  | false => exact PastHeader.keepsEnd hin hends (dispatch_past ⟨hin, hann, fun _ => hends⟩ hc b)
  | true =>
    unfold dispatch
    cases hp : p.state <;> rw [hp] at hends <;> try cases hends
    · refine (putBodyToEof_keepsEnd (p := { p with state := .bodyToEof }) rfl b).after ?_
      exact fun later => congrFun (scanToEnd_bodyToEof0 hp).symm _
    · have h := putBodyToEof_keepsEnd (p := { p with state := .bodyToEof }) rfl b
      exact h.after fun later => by rw [← hp]

theorem dispatch_complete {p : BasicParser} {b later : Str} (hc : p.state ≠ .complete)
    (hcons : Consistent p b) (hann : Announced p) (hfits : Fits p b later) (hb : b ≠ []) :
    Complete p b later (dispatch p b) := by
  by_cases hin : inHeader p.state = true
  · obtain ⟨n, σ, tail, hleft⟩ := hfits hin
    unfold dispatch
    cases hp : p.state <;> rw [hp] at hin <;> try cases hin
    · dsimp only
      rw [if_neg hb]
      have hleft' : HeaderLeft { p with state := .startLine } b later n σ tail :=
        ⟨(congrFun (scanHeader_nothingYet hp) _).trans hleft.scan, hleft.length, hleft.fits,
          hleft.searched⟩
      exact (putStartLine_complete rfl hleft').after (congrFun (scanMessage_nothingYet hp).symm _)
    · exact putStartLine_complete hp hleft
    · exact putFields_complete hp hleft
  · have hin' := eq_false_of_ne_true hin
    have hsettles := dispatch_settles hin' hc hcons hb
    have hpast := dispatch_past ⟨hin', hann, fun _ => rfl⟩ hc b
    cases hr : dispatch p b with
    | next p' rest =>
      rw [hr] at hpast
      intro hheader
      rw [hpast.body] at hheader
      cases hheader
    | needMore p' rest =>
      rw [hr] at hpast hsettles
      refine ⟨fun hheader => ?_, hsettles.2⟩
      rw [hpast.body] at hheader
      cases hheader
    | failed e =>
      rw [hr] at hsettles
      exact hsettles later

/-! ### The loop of `put` -/

/-- A parser that can be given bytes. -/
structure Ready (p : BasicParser) (b : Str) : Prop where
  consistent : Consistent p b
  announced : Announced p
  incomplete : p.state ≠ .complete

def PutSound (p : BasicParser) (b : Str) : Put → Prop
  | .next p' rest => Continues p b p' rest ∧ Started p' ∧ (p'.state ≠ .complete → rest = [])
  | .needMore p' rest => Continues p b p' rest ∧ Started p' ∧ p'.state ≠ .complete
  | .failed _ => True

/- Each turn consumes. -/
theorem putLoop_sound {n : ℕ} {p : BasicParser} {b : Str} (hn : b.length < n) (h : Ready p b)
    (hb : b ≠ []) : PutSound p b (putLoop n p b) := by
  induction n generalizing p b with
  | zero => exact absurd hn (Nat.not_lt_zero _)
  | succ n ih =>
    have hsound := dispatch_sound h.incomplete h.consistent hb
    have hann := dispatch_started h.incomplete h.consistent h.announced hb
    unfold putLoop
    cases hr : dispatch p b with
    | failed e => trivial
    | needMore p' rest =>
      rw [hr] at hsound hann
      exact ⟨hsound.1, hann, hsound.2⟩
    | next p' rest =>
      rw [hr] at hsound hann
      dsimp only
      split
      · rename_i hgo
        have hrec := ih (Nat.lt_of_lt_of_le hsound.2 (Nat.le_of_lt_succ hn))
          ⟨hsound.1.consistent, hann.1, hgo.2⟩ hgo.1
        cases hr' : putLoop n p' rest with
        | failed e => trivial
        | needMore p'' rest' =>
          rw [hr'] at hrec
          exact ⟨hsound.1.trans hrec.1, hrec.2⟩
        | next p'' rest' =>
          rw [hr'] at hrec
          exact ⟨hsound.1.trans hrec.1, hrec.2⟩
      · rename_i hstop
        exact ⟨hsound.1, hann, fun hc => by_contra fun hne => hstop ⟨hne, hc⟩⟩

theorem putLoop_keepsEnd {n : ℕ} {p : BasicParser} {b : Str} (hn : b.length < n) (h : Ready p b)
    (hb : b ≠ []) : KeepsEnd p b (putLoop n p b) := by
  induction n generalizing p b with
  | zero => exact absurd hn (Nat.not_lt_zero _)
  | succ n ih =>
    have hsound := dispatch_sound h.incomplete h.consistent hb
    have hann := dispatch_started h.incomplete h.consistent h.announced hb
    have hkeeps := dispatch_keepsEnd h.incomplete h.consistent h.announced hb
    unfold putLoop
    cases hr : dispatch p b with
    | failed e => trivial
    | needMore p' rest =>
      rw [hr] at hkeeps
      exact hkeeps
    | next p' rest =>
      rw [hr] at hsound hann hkeeps
      dsimp only
      split
      · rename_i hgo
        exact (ih (Nat.lt_of_lt_of_le hsound.2 (Nat.le_of_lt_succ hn))
          ⟨hsound.1.consistent, hann.1, hgo.2⟩ hgo.1).after hkeeps
      · exact hkeeps

theorem putLoop_complete {n : ℕ} {p : BasicParser} {b later : Str} (hn : b.length < n)
    (h : Ready p b) (hfits : Fits p b later) (hb : b ≠ []) :
    Complete p b later (putLoop n p b) := by
  induction n generalizing p b with
  | zero => exact absurd hn (Nat.not_lt_zero _)
  | succ n ih =>
    have hsound := dispatch_sound h.incomplete h.consistent hb
    have hann := dispatch_started h.incomplete h.consistent h.announced hb
    have hcomplete := dispatch_complete h.incomplete h.consistent h.announced hfits hb
    unfold putLoop
    cases hr : dispatch p b with
    | failed e =>
      rw [hr] at hcomplete
      exact hcomplete
    | needMore p' rest =>
      rw [hr] at hcomplete
      exact hcomplete
    | next p' rest =>
      rw [hr] at hsound hann hcomplete
      dsimp only
      split
      · rename_i hgo
        have hrec := ih (Nat.lt_of_lt_of_le hsound.2 (Nat.le_of_lt_succ hn))
          ⟨hsound.1.consistent, hann.1, hgo.2⟩ hcomplete hgo.1
        cases hr' : putLoop n p' rest with
        | failed e =>
          rw [hr'] at hrec
          intro σ tail hdone
          rw [hsound.1.scan later] at hdone
          exact hrec σ tail hdone
        | needMore p'' rest' =>
          rw [hr'] at hrec
          exact hrec
        | next p'' rest' =>
          rw [hr'] at hrec
          exact hrec
      · exact hcomplete

/-! ### The bytes in the buffer -/

theorem takes_scanChunks (σ : Parsed) : Takes 2 (scanChunks σ) := by
  intro b r rest h
  rcases repeated_eq_done consumes_chunkStep h with hstop | ⟨σ', mid, hagain, hmid⟩
  · exact takes_chunkStep σ b _ rest hstop
  · have h1 := takes_chunkStep σ b _ mid hagain
    have h2 := (incremental_scanChunks σ').takes mid r rest hmid
    omega

/- No message ends without a byte. -/
theorem Ready.unfinished {p : BasicParser} {b : Str} (h : Ready p b) : Unfinished p [] := by
  intro σ tail hdone
  have hcons := h.consistent
  by_cases hin : inHeader p.state = true
  · rw [scanMessage_inHeader hin] at hdone
    have htwo := Takes.andThen (m := 2) (n := 0) (takes_scanHeader hin)
      (fun σ => Incremental.takes (.andThen (.lift _) incremental_scanBody)) _ _ _ hdone
    rw [List.length_nil] at htwo
    omega
  · have hexact : 0 < p.len → ∀ f : Str → Scan Parsed, andThen (exactly p.len) f [] ≠ .done σ tail := by
      intro hlen f hf
      obtain ⟨w, mid, hw, -⟩ := andThen_eq_done hf
      obtain ⟨hnil, hwlen⟩ := exactly_eq_done hw
      rw [List.nil_eq_append_iff.mp hnil |>.1, List.length_nil] at hwlen
      omega
    have hchunks : ∀ σ' : Parsed, scanChunks σ' [] ≠ .done σ tail := by
      intro σ' hσ'
      have htwo := takes_scanChunks σ' _ _ _ hσ'
      rw [List.length_nil] at htwo
      omega
    rw [scanMessage_body (eq_false_of_ne_true hin), scanBody] at hdone
    rw [Consistent] at hcons
    cases hp : p.state <;> rw [hp] at hcons hin hdone <;> dsimp only at hcons hdone
    case nothingYet | startLine | fields => exact hin rfl
    case body0 | body => exact hexact hcons _ hdone
    case bodyToEof0 | bodyToEof =>
      unfold scanToEof at hdone
      split at hdone <;> cases hdone
    case chunkHeader0 | chunkHeader | chunkBody => exact hchunks _ hdone
    case complete => exact h.incomplete hp

/- What has become of a read that was given `b`. -/
def ReadSound (p : BasicParser) (b : Str) : Reading → Prop
  | .delivered m rest =>
    ∃ σ, σ.m = m ∧ ∀ later, scanMessage p.toParsed (b ++ later) = .done σ (rest ++ later)
  | .waiting p' b' => Ready p' b' ∧ (p'.state = .nothingYet → p.state = .nothingYet ∧ b = []) ∧
      ∀ later, scanMessage p.toParsed (b ++ later) = scanMessage p'.toParsed (b' ++ later)
  | .failed _ => True

def ReadComplete (p : BasicParser) (b later : Str) : Reading → Prop
  | .delivered _ _ => True
  | .waiting p' b' => Fits p' b' later ∧ Unfinished p' b'
  | .failed _ => Unfinished p (b ++ later)

theorem readBuffer_sound {p : BasicParser} {b : Str} (h : Ready p b) :
    ReadSound p b (readBuffer p b) := by
  unfold readBuffer
  split
  · rename_i hb
    exact ⟨h, fun hp => ⟨hp, hb⟩, fun later => rfl⟩
  · rename_i hb
    have hput := putLoop_sound (Nat.lt_succ_self b.length) h hb
    unfold put
    cases hr : putLoop (b.length + 1) p b with
    | failed e => trivial
    | needMore p' rest =>
      rw [hr] at hput
      exact ⟨⟨hput.1.consistent, hput.2.1.1, hput.2.2⟩, fun hp => absurd hp hput.2.1.2, hput.1.scan⟩
    | next p' rest =>
      rw [hr] at hput
      dsimp only
      split
      · rename_i hc
        refine ⟨p'.toParsed, rfl, fun later => ?_⟩
        rw [hput.1.scan later, scanMessage_complete hc]
        rfl
      · rename_i hc
        exact ⟨⟨hput.1.consistent, hput.2.1.1, hc⟩, fun hp => absurd hp hput.2.1.2, hput.1.scan⟩

/- The response that the end of the stream completes is still the same, and the bytes of a body
that ends there have all been taken. -/
def ReadKeepsEnd (p : BasicParser) (b : Str) : Reading → Prop
  | .waiting p' b' => (endsWithStream p'.state = true → b' = []) ∧
      ∀ later, scanToEnd p.toParsed (b ++ later) = scanToEnd p'.toParsed (b' ++ later)
  | _ => True

theorem readBuffer_keepsEnd {p : BasicParser} {b : Str} (h : Ready p b) :
    ReadKeepsEnd p b (readBuffer p b) := by
  unfold readBuffer
  split
  · rename_i hb
    exact ⟨fun _ => hb, fun later => rfl⟩
  · rename_i hb
    have hsound := putLoop_sound (Nat.lt_succ_self b.length) h hb
    have hkeeps := putLoop_keepsEnd (Nat.lt_succ_self b.length) h hb
    unfold put
    cases hr : putLoop (b.length + 1) p b with
    | failed e => trivial
    | needMore p' rest =>
      rw [hr] at hkeeps
      refine ⟨fun hends => ?_, hkeeps.2⟩
      rw [hkeeps.1] at hends
      cases hends
    | next p' rest =>
      rw [hr] at hsound hkeeps
      dsimp only
      split
      · trivial
      · rename_i hc
        exact ⟨fun _ => hsound.2.2 hc, hkeeps⟩

theorem readBuffer_complete {p : BasicParser} {b later : Str} (h : Ready p b)
    (hfits : Fits p b later) : ReadComplete p b later (readBuffer p b) := by
  unfold readBuffer
  split
  · rename_i hb
    rw [hb] at h hfits ⊢
    exact ⟨hfits, h.unfinished⟩
  · rename_i hb
    have hsound := putLoop_sound (Nat.lt_succ_self b.length) h hb
    have hput := putLoop_complete (Nat.lt_succ_self b.length) h hfits hb
    unfold put
    cases hr : putLoop (b.length + 1) p b with
    | failed e =>
      rw [hr] at hput
      exact hput
    | needMore p' rest =>
      rw [hr] at hput
      exact hput
    | next p' rest =>
      rw [hr] at hput hsound
      dsimp only
      split
      · trivial
      · rename_i hc
        have hready : Ready p' rest := ⟨hsound.1.consistent, hsound.2.1.1, hc⟩
        rw [hsound.2.2 hc] at hput hready ⊢
        exact ⟨hput, hready.unfinished⟩

/-! ### Further bytes -/

theorem Searched.append {p : BasicParser} {b : Str} (h : Searched p b) (later : Str) :
    Searched p (b ++ later) := by
  obtain ⟨hle, hor⟩ := h
  refine ⟨hle, hor.imp_right fun ⟨hskip, hnot⟩ => ⟨?_, ?_⟩⟩
  · rw [List.length_append]
    omega
  · rw [List.take_append_of_le_length hskip]
    exact hnot

theorem LastLine.append {p : BasicParser} {b : Str} (h : LastLine p b) (later : Str) :
    LastLine p (b ++ later) := by
  obtain ⟨line, eol, ext, hat⟩ := h
  refine ⟨line, eol ++ later, ext, (hat.atLine.append later).bytes, hat.noCr, hat.size, ?_⟩
  intro further
  have hsearched := hat.searched (later ++ further)
  rw [← List.append_assoc] at hsearched
  rw [hsearched, List.cons_append, List.cons_append, List.cons_append, List.cons_append,
    List.append_assoc]

theorem Ready.append {p : BasicParser} {b : Str} (h : Ready p b) (later : Str) :
    Ready p (b ++ later) := by
  refine ⟨?_, h.announced, h.incomplete⟩
  have hcons := h.consistent
  unfold Consistent at hcons ⊢
  cases hp : p.state <;> rw [hp] at hcons <;> dsimp only at hcons ⊢ <;> try exact hcons
  all_goals
    split at hcons
    · rename_i hf
      rw [if_pos hf]
      exact hcons.append later
    · rename_i hf
      rw [if_neg hf]
      exact hcons.append later

theorem Fits.append {p : BasicParser} {b chunk later : Str} (h : Fits p b (chunk ++ later)) :
    Fits p (b ++ chunk) later := by
  intro hin
  obtain ⟨n, σ, tail, hscan, hlen, hfits, hsearched⟩ := h hin
  rw [← List.append_assoc] at hscan hlen hsearched
  exact ⟨n, σ, tail, hscan, hlen, hfits, hsearched⟩

/-! ### Whatever the chunks are -/

theorem receive_sound {p : BasicParser} {b : Str} (h : Ready p b) {chunks unread : List Str}
    {m : Response} {rest : Str}
    (hr : receive (readBuffer p b) chunks = (.delivered m rest, unread)) :
    ∃ read σ, chunks = read ++ unread ∧ σ.m = m ∧
      scanMessage p.toParsed (b ++ read.flatten) = .done σ rest := by
  induction chunks generalizing p b with
  | nil =>
    have hread := readBuffer_sound h
    cases hb : readBuffer p b with
    | failed e =>
      rw [hb] at hr
      cases hr
    | waiting p' b' =>
      rw [hb] at hr
      cases hr
    | delivered m' rest' =>
      rw [hb] at hr hread
      cases hr
      obtain ⟨σ, hm, hscan⟩ := hread
      have hnow := hscan []
      rw [List.append_nil rest] at hnow
      exact ⟨[], σ, rfl, hm, hnow⟩
  | cons chunk chunks ih =>
    have hread := readBuffer_sound h
    cases hb : readBuffer p b with
    | failed e =>
      rw [hb] at hr
      cases hr
    | waiting p' b' =>
      rw [hb] at hr hread
      obtain ⟨hready, -, hscan⟩ := hread
      obtain ⟨read, σ, hchunks, hm, hdone⟩ := ih (hready.append chunk) hr
      refine ⟨chunk :: read, σ, by rw [hchunks, List.cons_append], hm, ?_⟩
      rw [List.flatten_cons, hscan, ← List.append_assoc]
      exact hdone
    | delivered m' rest' =>
      rw [hb] at hr hread
      cases hr
      obtain ⟨σ, hm, hscan⟩ := hread
      have hnow := hscan []
      rw [List.append_nil rest] at hnow
      exact ⟨[], σ, rfl, hm, hnow⟩

/- A read that still waits has read all chunks. -/
theorem receive_waiting {p p' : BasicParser} {b b' : Str} (h : Ready p b) {chunks unread : List Str}
    (hr : receive (readBuffer p b) chunks = (.waiting p' b', unread)) :
    unread = [] ∧ Ready p' b' ∧ (endsWithStream p'.state = true → b' = []) ∧
      scanToEnd p.toParsed (b ++ chunks.flatten) = scanToEnd p'.toParsed b' := by
  induction chunks generalizing p b with
  | nil =>
    have hread := readBuffer_sound h
    have hkeeps := readBuffer_keepsEnd h
    cases hb : readBuffer p b with
    | failed e =>
      rw [hb] at hr
      cases hr
    | delivered m rest =>
      rw [hb] at hr
      cases hr
    | waiting p₁ b₁ =>
      rw [hb] at hr hread hkeeps
      cases hr
      have hsame := hkeeps.2 []
      rw [List.append_nil b'] at hsame
      exact ⟨rfl, hread.1, hkeeps.1, hsame⟩
  | cons chunk chunks ih =>
    have hread := readBuffer_sound h
    have hkeeps := readBuffer_keepsEnd h
    cases hb : readBuffer p b with
    | failed e =>
      rw [hb] at hr
      cases hr
    | delivered m rest =>
      rw [hb] at hr
      cases hr
    | waiting p₁ b₁ =>
      rw [hb] at hr hread hkeeps
      obtain ⟨hunread, hready, hends, hsame⟩ := ih (hread.1.append chunk) hr
      refine ⟨hunread, hready, hends, ?_⟩
      rw [List.flatten_cons, hkeeps.2, ← List.append_assoc]
      exact hsame

theorem putEof_ok {p p' : BasicParser} {b : Str} (h : Ready p b) (hstart : p.state ≠ .nothingYet)
    (hok : putEof p = .ok p') : endsWithStream p.state = true ∧ p'.m = p.m := by
  have hann := h.announced
  unfold putEof at hok
  split at hok
  · cases hok
  rename_i hheader
  split at hok
  · rw [if_pos h.incomplete] at hok
    cases hok
  rename_i hnone
  cases hok
  rw [Bool.or_eq_true, not_or] at hnone
  rw [Bool.or_eq_true, decide_eq_true_iff, decide_eq_true_iff, not_or] at hheader
  unfold Announced at hann
  refine ⟨?_, rfl⟩
  cases hp : p.state <;> rw [hp] at hann
  case nothingYet => exact absurd hp hstart
  case startLine => exact absurd hp hheader.1
  case fields => exact absurd hp hheader.2
  case body0 | body => exact absurd hann hnone.1
  case bodyToEof0 | bodyToEof => rfl
  case chunkHeader0 | chunkHeader | chunkBody => exact absurd hann hnone.2
  case complete => exact absurd hp h.incomplete

/- The end of the stream completes a response whose body ends with it, and no other. -/
theorem readEof_delivered {p : BasicParser} {b rest : Str} {m : Response} (h : Ready p b)
    (hall : endsWithStream p.state = true → b = [])
    (hr : readEof (.waiting p b) = .delivered m rest) :
    rest = [] ∧ scanToEnd p.toParsed b = some m := by
  simp only [readEof] at hr
  split at hr
  · cases hr
  rename_i hstart
  split at hr
  · rename_i p' hok
    obtain ⟨hends, hm⟩ := putEof_ok h hstart hok
    have hin : inHeader p.state = false := by
      cases hp : p.state <;> rw [hp] at hends <;> first | rfl | cases hends
    have hnil : p.m.body ++ [] = p.m.body := List.append_nil _
    cases hr
    rw [hall hends, hm, scanToEnd_body hin, bodyToEnd, hends, Parsed.toEof, hnil]
    exact ⟨rfl, rfl⟩
  · cases hr

/- The bytes `missing` would complete the message. -/
theorem receive_complete {p : BasicParser} {b missing tail : Str} {chunks : List Str} {σ : Parsed}
    (h : Ready p b) (hfits : Fits p b (chunks.flatten ++ missing))
    (hscan : scanMessage p.toParsed (b ++ (chunks.flatten ++ missing)) = .done σ tail) :
    (∃ rest unread, receive (readBuffer p b) chunks = (.delivered σ.m rest, unread) ∧
        rest ++ (unread.flatten ++ missing) = tail) ∨
      ∃ p' b', receive (readBuffer p b) chunks = (.waiting p' b', []) ∧ Ready p' b' ∧
        (p'.state = .nothingYet → p.state = .nothingYet ∧ b ++ chunks.flatten = []) ∧
        Unfinished p' b' ∧ scanMessage p'.toParsed (b' ++ missing) = .done σ tail := by
  induction chunks generalizing p b with
  | nil =>
    have hread := readBuffer_sound h
    have hcomplete := readBuffer_complete h hfits
    cases hb : readBuffer p b with
    | failed e =>
      rw [hb] at hcomplete
      exact absurd hscan (hcomplete σ tail)
    | waiting p' b' =>
      rw [hb] at hread hcomplete
      refine .inr ⟨p', b', rfl, hread.1, fun hp => ?_, hcomplete.2, ?_⟩
      · obtain ⟨hstart, rfl⟩ := hread.2.1 hp
        exact ⟨hstart, rfl⟩
      · exact (hread.2.2 missing).symm.trans hscan
    | delivered m' rest' =>
      rw [hb] at hread
      obtain ⟨σ', rfl, hall⟩ := hread
      have hsame := (hall missing).symm.trans hscan
      cases hsame
      exact .inl ⟨rest', [], rfl, rfl⟩
  | cons chunk chunks ih =>
    have hread := readBuffer_sound h
    have hcomplete := readBuffer_complete h hfits
    rw [List.flatten_cons, List.append_assoc] at hfits hscan hcomplete
    cases hb : readBuffer p b with
    | failed e =>
      rw [hb] at hcomplete
      exact absurd hscan (hcomplete σ tail)
    | waiting p' b' =>
      rw [hb] at hread hcomplete
      have hrest : scanMessage p'.toParsed (b' ++ chunk ++ (chunks.flatten ++ missing)) =
          .done σ tail := by
        rw [List.append_assoc, ← hread.2.2]
        exact hscan
      obtain hdone | ⟨p₂, b₂, hwait, hready, hstart, hunfinished, hdone⟩ :=
        ih (hread.1.append chunk) hcomplete.1.append hrest
      · exact .inl hdone
      · refine .inr ⟨p₂, b₂, hwait, hready, fun hp => ?_, hunfinished, hdone⟩
        obtain ⟨hp', hnone⟩ := hstart hp
        obtain ⟨hp, rfl⟩ := hread.2.1 hp'
        rw [List.append_assoc] at hnone
        exact ⟨hp, (List.append_eq_nil_iff.mp hnone).2⟩
    | delivered m' rest' =>
      rw [hb] at hread
      obtain ⟨σ', rfl, hall⟩ := hread
      have hsame := (hall _).symm.trans hscan
      cases hsame
      refine .inl ⟨rest', chunk :: chunks, rfl, ?_⟩
      rw [List.flatten_cons, List.append_assoc]

end RestClient.ResponseParser
