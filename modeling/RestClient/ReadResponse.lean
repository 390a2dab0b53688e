import RestClient.PutLoop

/-!
# Reading a response

`http::async_read` on a connection that hands over the bytes of a response in chunks of its
own choosing: what it delivers, when it fails, and what the end of the stream makes of a
response that has been cut.
-/

namespace RestClient.ResponseParser
open Scanning Occurrence

/- The header, with the empty line that ends it, is not above the limit. -/
def HeaderFits (bytes : Str) : Prop := ∀ n, findEom bytes = some n → n ≤ headerLimit

theorem headerFits_of_find {bytes : Str} {n : ℕ} (heom : findEom bytes = some n)
    (hn : n ≤ headerLimit) : HeaderFits bytes := by
  intro n' heom'
  rw [heom] at heom'
  cases heom'
  exact hn

theorem HeaderFits.of_append {b later : Str} (h : HeaderFits (b ++ later)) : HeaderFits b := by
  intro n heom
  rw [findEom_eq] at heom
  refine h n ?_
  rw [findEom_eq]
  exact endOfFirst_append heom later

theorem scanMessage_of_response {m r : Response} {bytes rest : Str}
    (h : scanResponse m bytes = .done r rest) :
    ∃ σ, σ.m = r ∧ scanMessage (initial m).toParsed bytes = .done σ rest := by
  obtain ⟨σ, mid, hscan, hret⟩ := andThen_eq_done h
  cases hret
  exact ⟨σ, rfl, hscan⟩

theorem scanResponse_of_message {m : Response} {σ : Parsed} {bytes rest : Str}
    (h : scanMessage (initial m).toParsed bytes = .done σ rest) :
    scanResponse m bytes = .done σ.m rest := andThen_of_done h _

theorem initial_ready (m : Response) (b : Str) : Ready (initial m) b :=
  ⟨⟨rfl, rfl⟩, trivial, nofun⟩

/- The header ends where the first CRLFCRLF does. -/
theorem header_of_message {m : Response} {σ : Parsed} {bytes tail : Str}
    (h : scanMessage (initial m).toParsed bytes = .done σ tail) :
    ∃ n σ' rest, scanHeader (initial m).toParsed bytes = .done σ' rest ∧
      bytes.length = n + rest.length ∧ findEom bytes = some n := by
  rw [scanMessage_inHeader rfl] at h
  obtain ⟨σ', rest, hheader, -⟩ := andThen_eq_done h
  rw [← scanHeader_nothingYet rfl] at hheader
  obtain ⟨n, hlen, heom⟩ := scanHeader_end rfl hheader
  exact ⟨n, σ', rest, hheader, hlen, heom⟩

/- What follows a response is not part of its header. -/
theorem HeaderFits.append {m r : Response} {bytes rest : Str}
    (h : scanResponse m bytes = .done r rest) (hfits : HeaderFits bytes) (later : Str) :
    HeaderFits (bytes ++ later) := by
  obtain ⟨σ, -, hscan⟩ := scanMessage_of_response h
  obtain ⟨n, -, -, -, -, heom⟩ := header_of_message hscan
  intro n' heom'
  have hsame := heom
  rw [findEom_eq] at heom' hsame
  rw [endOfFirst_append hsame later] at heom'
  cases heom'
  exact hfits n heom

theorem initial_fits {m : Response} {σ : Parsed} {b later tail : Str}
    (h : scanMessage (initial m).toParsed (b ++ later) = .done σ tail)
    (hfits : HeaderFits (b ++ later)) : Fits (initial m) b later := by
  intro _
  obtain ⟨n, σ', rest, hheader, hlen, heom⟩ := header_of_message h
  exact ⟨n, σ', rest, hheader, hlen, hfits n heom, .inl rfl⟩

/-! ### A response that is all there -/

/- Four bytes are not enough for the version, but for a search of the header's end. -/
theorem readBuffer_four (m : Response) (a b c d : Char) :
    readBuffer (initial m) [a, b, c, d] =
      .waiting { initial m with state := .startLine, skip := 1 } [a, b, c, d] := rfl

/- No end is found among the bytes that the limit leaves. -/
theorem maybeNeedMore_limit {bytes : Str} {n : ℕ} (heom : findEom bytes = some n)
    (hn : headerLimit < n) : maybeNeedMore 1 bytes = .error .headerLimit := by
  rw [findEom_eq] at heom
  have hle := (endOfFirst_bounds heom).2
  have hmin : min bytes.length headerLimit = headerLimit := by omega
  have hnone : endOfFirst eom (bytes.take headerLimit) = none := by
    refine endOfFirst_short (k := n) (t := bytes.drop headerLimit) ?_ ?_
    · rw [List.take_append_drop]
      exact heom
    · rw [List.length_take]
      omega
  unfold maybeNeedMore
  rw [hmin, if_neg Nat.one_ne_zero, if_neg (by decide), findEom_eq, endOfFirst_drop_none hnone]
  rfl

theorem asyncRead_aboveLimit {m : Response} {bytes : Str} {n : ℕ} (heom : findEom bytes = some n)
    (hn : headerLimit < n) :
    asyncRead m (bytes.take 4) [bytes.drop 4] = (.failed .headerLimit, []) := by
  have hlen : 4 ≤ bytes.length := by
    rw [findEom_eq] at heom
    have hle := (endOfFirst_bounds heom).2
    unfold headerLimit at hn
    omega
  obtain ⟨a, b, c, d, later, rfl⟩ : ∃ a b c d later, bytes = a :: b :: c :: d :: later := by
    match bytes, hlen with
    | a :: b :: c :: d :: later, _ => exact ⟨a, b, c, d, later, rfl⟩
  have hput : putStartLine { initial m with state := .startLine, skip := 1 }
      (a :: b :: c :: d :: later) = .failed .headerLimit := by
    unfold putStartLine
    rw [maybeNeedMore_limit heom hn]
  unfold asyncRead
  rw [List.take_succ_cons, List.take_succ_cons, List.take_succ_cons, List.take_succ_cons,
    List.take_zero, readBuffer_four, receive]
  have hread : readBuffer { initial m with state := .startLine, skip := 1 }
      (a :: b :: c :: d :: later) = .failed .headerLimit := by
    unfold readBuffer put
    rw [if_neg (List.cons_ne_nil _ _), putLoop, dispatch, hput]
  rw [List.drop_succ_cons, List.drop_succ_cons, List.drop_succ_cons, List.drop_succ_cons,
    List.drop_zero, List.cons_append, List.cons_append, List.cons_append, List.cons_append,
    List.nil_append, hread]
  rfl

theorem asyncRead_delivers {m r : Response} {b rest : Str} {chunks : List Str}
    (h : scanResponse m (b ++ chunks.flatten) = .done r rest)
    (hfits : HeaderFits (b ++ chunks.flatten)) :
    ∃ left unread, asyncRead m b chunks = (.delivered r left, unread) ∧
      left ++ unread.flatten = rest := by
  obtain ⟨σ, rfl, hscan⟩ := scanMessage_of_response h
  rw [← List.append_nil chunks.flatten] at hscan hfits
  obtain ⟨left, unread, hread, hleft⟩ | ⟨p, b', -, -, -, hunfinished, hdone⟩ :=
    receive_complete (initial_ready m b) (initial_fits hscan hfits) hscan
  · rw [List.append_nil] at hleft
    exact ⟨left, unread, hread, hleft⟩
  · rw [List.append_nil] at hdone
    exact absurd hdone (hunfinished σ rest)

/-- A response is delivered however its bytes arrive, and what follows it is left, exactly
when its header is within the limit. -/
theorem asyncRead_iff_headerFits {m r : Response} {bytes rest : Str}
    (h : scanResponse m bytes = .done r rest) :
    (∀ b chunks, b ++ chunks.flatten = bytes → ∃ left unread,
      asyncRead m b chunks = (.delivered r left, unread) ∧ left ++ unread.flatten = rest) ↔
      HeaderFits bytes := by
  constructor
  · intro hall n heom
    by_contra hn
    obtain ⟨left, unread, hread, -⟩ := hall (bytes.take 4) [bytes.drop 4]
      (by rw [List.flatten_cons, List.flatten_nil, List.append_nil, List.take_append_drop])
    rw [asyncRead_aboveLimit heom (Nat.lt_of_not_le hn)] at hread
    cases hread
  · rintro hfits b chunks rfl
    exact asyncRead_delivers h hfits

/- A short response, cut within its status, is delivered with the bytes of the next one left. -/
theorem asyncRead_iff_headerFits_short : ∃ left unread,
    asyncRead default "HTTP/1.1 2".toList ["00 OK\r\nContent-Len".toList,
        "gth: 2\r\n\r\nhiHT".toList, "TP".toList] =
      (.delivered ⟨200, 11, "OK".toList, [("Content-Length".toList, "2".toList)], "hi".toList⟩ left,
        unread) ∧ left ++ unread.flatten = "HTTP".toList := by
  have hscan : scanResponse default "HTTP/1.1 200 OK\r\nContent-Length: 2\r\n\r\nhiHTTP".toList =
      .done ⟨200, 11, "OK".toList, [("Content-Length".toList, "2".toList)], "hi".toList⟩
        "HTTP".toList := by decide +kernel
  refine (asyncRead_iff_headerFits hscan).mpr (headerFits_of_find (n := 38) ?_ ?_) _ _ rfl
  · decide +kernel
  · decide

/-! ### What is delivered -/

theorem asyncRead_delivered {m r : Response} {b rest : Str} {chunks unread : List Str}
    (h : asyncRead m b chunks = (.delivered r rest, unread)) :
    ∃ read, chunks = read ++ unread ∧ scanResponse m (b ++ read.flatten) = .done r rest := by
  obtain ⟨read, σ, hchunks, rfl, hscan⟩ := receive_sound (initial_ready m b) h
  exact ⟨read, hchunks, scanResponse_of_message hscan⟩

/- A read delivers before the stream has ended, or because it has. -/
theorem asyncReadToEnd_delivered {m r : Response} {b rest : Str} {chunks unread : List Str}
    (h : asyncReadToEnd m b chunks = (.delivered r rest, unread)) :
    asyncRead m b chunks = (.delivered r rest, unread) ∨
      (∃ p left, asyncRead m b chunks = (.waiting p left, [])) ∧ unread = [] ∧ rest = [] ∧
        scanToEnd (initial m).toParsed (b ++ chunks.flatten) = some r := by
  unfold asyncReadToEnd at h
  cases hread : asyncRead m b chunks with
  | mk reading unread' =>
    rw [hread] at h
    obtain ⟨heof, rfl⟩ := Prod.mk.inj h
    cases reading with
    | delivered m' rest' =>
      cases heof
      exact .inl rfl
    | failed e => cases heof
    | waiting p left =>
      obtain ⟨rfl, hready, hall, hend⟩ := receive_waiting (initial_ready m b) hread
      obtain ⟨hrest, hdone⟩ := readEof_delivered hready hall heof
      exact .inr ⟨⟨p, left, rfl⟩, rfl, hrest, hend.trans hdone⟩

/-- What is delivered, whatever the bytes are, is the response that begins with those in the
buffer and those of the chunks that were read; or, when the stream has ended while the read was
waiting, the response that is all of them. -/
theorem asyncRead_sound {m r : Response} {b rest : Str} {chunks unread : List Str}
    (h : asyncReadToEnd m b chunks = (.delivered r rest, unread)) :
    ∃ read, chunks = read ++ unread ∧
      (scanResponse m (b ++ read.flatten) = .done r rest ∨
        (∃ p left, asyncRead m b chunks = (.waiting p left, [])) ∧ unread = [] ∧ rest = [] ∧
          scanToEnd (initial m).toParsed (b ++ read.flatten) = some r) := by
  rcases asyncReadToEnd_delivered h with hread | ⟨hwaits, hunread, hrest, hend⟩
  · obtain ⟨read, hchunks, hscan⟩ := asyncRead_delivered hread
    exact ⟨read, hchunks, .inl hscan⟩
  · subst hunread
    exact ⟨chunks, (List.append_nil chunks).symm, .inr ⟨hwaits, rfl, hrest, hend⟩⟩

/- The body ends with the stream: its header tells neither of a length nor of chunks. -/
theorem asyncRead_sound_toEnd :
    let chunks := ["HTTP/1.1 200 OK\r\n\r\nhel".toList, "lo".toList]
    let r : Response := ⟨200, 11, "OK".toList, [], "hello".toList⟩
    ∃ read, chunks = read ++ [] ∧
      (scanResponse default ([] ++ read.flatten) = .done r [] ∨
        (∃ p left, asyncRead default [] chunks = (.waiting p left, [])) ∧
          ([] : List Str) = [] ∧ ([] : Str) = [] ∧
          scanToEnd (initial default).toParsed ([] ++ read.flatten) = some r) :=
  asyncRead_sound (by decide +kernel)

/-! ### A response that is cut -/

theorem receive_nothing (m : Response) {chunks : List Str} (h : chunks.flatten = []) :
    receive (.waiting (initial m) []) chunks = (.waiting (initial m) [], []) := by
  induction chunks with
  | nil => rfl
  | cons chunk chunks ih =>
    rw [List.flatten_cons] at h
    obtain ⟨rfl, hrest⟩ := List.append_eq_nil_iff.mp h
    exact ih hrest

/- A body that ends with the stream is never complete before. -/
theorem putEof_partial {p : BasicParser} {b missing tail : Str} {σ : Parsed} (h : Ready p b)
    (hstate : p.state ≠ .nothingYet)
    (hdone : scanMessage p.toParsed (b ++ missing) = .done σ tail) :
    putEof p = .error .partialMessage := by
  have hann := h.announced
  have hinc := h.incomplete
  have htoEof : ∀ σ' : Parsed, scanToEof σ' (b ++ missing) ≠ .done σ tail := by
    intro σ' hσ'
    unfold scanToEof at hσ'
    split at hσ' <;> cases hσ'
  unfold putEof
  unfold Announced at hann
  unfold scanMessage at hdone
  cases hp : p.state <;> rw [hp] at hann hinc hstate hdone
  case nothingYet => exact absurd rfl hstate
  case complete => exact absurd rfl hinc
  case startLine | fields => rfl
  case bodyToEof0 | bodyToEof =>
    dsimp only at hdone
    rw [scanBody, hp] at hdone
    exact absurd hdone (htoEof _)
  all_goals
    dsimp only at hann
    rw [hann]
    first | rfl | (rw [Bool.or_true]; rfl)

/- As long as what has come may be completed to a response, the read waits, and the end of the
stream makes it fail. -/
theorem asyncRead_of_part {m r : Response} {b missing tail : Str} {chunks : List Str}
    (h : scanResponse m (b ++ (chunks.flatten ++ missing)) = .done r tail)
    (hfits : HeaderFits (b ++ (chunks.flatten ++ missing))) :
    (∃ left unread, asyncRead m b chunks = (.delivered r left, unread) ∧
        left ++ (unread.flatten ++ missing) = tail) ∨
      ∃ p left, asyncRead m b chunks = (.waiting p left, []) ∧
        readEof (.waiting p left) =
          .failed (if b ++ chunks.flatten = [] then .endOfStream else .partialMessage) := by
  obtain ⟨σ, rfl, hscan⟩ := scanMessage_of_response h
  by_cases hnone : b ++ chunks.flatten = []
  · obtain ⟨rfl, hchunks⟩ := List.append_eq_nil_iff.mp hnone
    refine .inr ⟨initial m, [], receive_nothing m hchunks, ?_⟩
    rw [if_pos hnone]
    rfl
  · rw [if_neg hnone]
    refine (receive_complete (initial_ready m b) (initial_fits hscan hfits) hscan).imp_right ?_
    rintro ⟨p, left, hread, hready, hstart, -, hdone⟩
    have hstate : p.state ≠ .nothingYet := fun hp => hnone (hstart hp).2
    refine ⟨p, left, hread, ?_⟩
    rw [readEof, if_neg hstate, putEof_partial hready hstate hdone]

end RestClient.ResponseParser
