import RestClient.PutBody

/-!
# Parsing chunks piece by piece

The line of a chunk is looked for from `skip` on, and the end of the trailers behind the line
of the last one. What `put` finds there is what the grammar finds.
-/

namespace RestClient.ResponseParser
open Scanning Occurrence

/-! ### The line of a chunk -/

theorem findEol_append {line : Str} (h : '\r' ∉ line) (rest : Str) :
    findEol (line ++ '\r' :: '\n' :: rest) = .done line rest := by
  have hkept : ∀ c ∈ line, (c != '\r') = true := by
    intro c hc
    rw [bne_iff_ne]
    rintro rfl
    exact h hc
  rw [findEol, andThen_of_done (span_append hkept rfl _)]
  rfl

theorem findEol_eq_done {b line rest : Str} (h : findEol b = .done line rest) :
    b = line ++ '\r' :: '\n' :: rest ∧ '\r' ∉ line := by
  obtain ⟨w, b1, hspan, h1⟩ := andThen_eq_done h
  obtain ⟨c, b2, hitem, h2⟩ := andThen_eq_done h1
  obtain ⟨d, b3, hitem', h3⟩ := andThen_eq_done h2
  obtain ⟨_, b4, hlf, h4⟩ := andThen_eq_done h3
  obtain ⟨hd, rfl⟩ := require_eq_done hlf
  obtain ⟨rfl, hkept, c', tail, rfl, hc⟩ := span_eq_done hspan
  cases h4
  cases hitem
  have hcr : c = '\r' := by simpa using hc
  rw [item_eq_done hitem', hcr, beq_iff_eq.mp hd]
  exact ⟨rfl, not_cr_of_kept (by decide) hkept⟩

/- The end of a line that is not there may still have begun. -/
theorem findEol_eq_more {b : Str} (h : findEol b = .more) : '\r' ∉ b.take (b.length - 1) := by
  rcases andThen_eq_more h with hspan | ⟨w, b1, hspan, h1⟩
  · exact fun hmem => not_cr_of_kept (by decide) (span_eq_more hspan) (List.mem_of_mem_take hmem)
  obtain ⟨rfl, hkept, c', tail, rfl, hc⟩ := span_eq_done hspan
  rcases andThen_eq_more h1 with hitem | ⟨c, b2, hitem, h2⟩
  · cases hitem
  cases hitem
  rcases andThen_eq_more h2 with hitem' | ⟨d, b3, -, h3⟩
  · rw [item_eq_more hitem', List.length_append, List.length_singleton, Nat.add_sub_cancel,
      List.take_left]
    exact not_cr_of_kept (by decide) hkept
  · rcases andThen_eq_more h3 with hlf | ⟨_, b4, -, h4⟩
    · exact absurd hlf require_ne_more
    · cases h4

/- The bytes before a search for the end of the line have no part in what it finds. -/
theorem findEol_text {t b : Str} (ht : '\r' ∉ t) :
    (∀ line rest, findEol b = .done line rest → findEol (t ++ b) = .done (t ++ line) rest) ∧
      (findEol b = .more → findEol (t ++ b) = .more) ∧
      ∀ e, findEol b = .failed e → findEol (t ++ b) = .failed e := by
  have hkept : ∀ c ∈ t, (c != '\r') = true := by
    intro c hc
    rw [bne_iff_ne]
    rintro rfl
    exact ht hc
  unfold findEol andThen
  cases hb : (span (· != '\r') b : Scanned HttpError Char Str) with
  | failed e =>
    unfold span at hb
    split at hb <;> cases hb
  | more =>
    have hmore : (span (· != '\r') (t ++ b) : Scanned HttpError Char Str) = .more := by
      unfold span
      rw [List.dropWhile_append_of_pos hkept, List.dropWhile_eq_nil_iff.mpr (span_eq_more hb)]
    rw [hmore]
    exact ⟨nofun, fun h => h, nofun⟩
  | done w rest =>
    obtain ⟨hsplit, hw, d, tail, rfl, hd⟩ := span_eq_done hb
    have hkept' : ∀ c ∈ t ++ w, (c != '\r') = true := fun c hc =>
      (List.mem_append.mp hc).elim (hkept c) (hw c)
    have hdone : (span (· != '\r') (t ++ b) : Scanned HttpError Char Str) =
        .done (t ++ w) (d :: tail) := by
      rw [hsplit, ← List.append_assoc]
      exact span_append hkept' hd tail
    rw [hdone]
    dsimp only
    cases item (d :: tail) with
    | failed e => exact ⟨nofun, nofun, fun e' h => h⟩
    | more => exact ⟨nofun, fun h => h, nofun⟩
    | done c rest' =>
      dsimp only
      cases item rest' with
      | failed e => exact ⟨nofun, nofun, fun e' h => h⟩
      | more => exact ⟨nofun, fun h => h, nofun⟩
      | done d rest'' =>
        dsimp only
        cases require (d == '\n') HttpError.badLineEnding rest'' with
        | failed e => exact ⟨nofun, nofun, fun e' h => h⟩
        | more => exact ⟨nofun, fun h => h, nofun⟩
        | done u rest3 =>
          refine ⟨fun line tail h => ?_, nofun, nofun⟩
          cases h
          rfl

theorem hexFrom_append (v : ℕ) (s rest : Str) :
    hexFrom v (s ++ '\r' :: rest) =
      (hexFrom v (s ++ ['\r'])).map fun r => (r.1, r.2 ++ rest) := by
  induction s generalizing v with
  | nil => rfl
  | cons c s ih =>
    rw [List.cons_append, List.cons_append, hexFrom, hexFrom]
    cases unhex c with
    | none =>
      dsimp only
      rw [Option.map_some, List.cons_append, List.append_assoc]
      rfl
    | some d =>
      dsimp only
      split
      · rfl
      · split
        · rfl
        · exact ih _

/- The digits end within the line. -/
theorem parseHex_append (line eol : Str) : parseHex (line ++ '\r' :: '\n' :: eol) =
    (parseHex (line ++ crlf)).map fun r => (r.1, r.2 ++ eol) := by
  cases line with
  | nil => rfl
  | cons c s =>
    have hwhole := hexFrom_append 0 (c :: s) ('\n' :: eol)
    have hline := hexFrom_append 0 (c :: s) ['\n']
    change (if (unhex c).isNone then none else hexFrom 0 (c :: s ++ '\r' :: '\n' :: eol)) =
      (if (unhex c).isNone then none else hexFrom 0 (c :: s ++ '\r' :: ['\n'])).map _
    split
    · rfl
    · rw [hwhole, hline, Option.map_map]
      congr 1
      funext r
      simp

theorem hexFrom_rest {v n : ℕ} {s ext : Str} (h : hexFrom v (s ++ crlf) = some (n, ext)) :
    ∃ x, ext = x ++ crlf ∧ x <:+ s := by
  induction s generalizing v with
  | nil =>
    cases h
    exact ⟨[], rfl, List.suffix_refl _⟩
  | cons c s ih =>
    rw [List.cons_append, hexFrom] at h
    cases hc : unhex c with
    | none =>
      rw [hc] at h
      cases h
      exact ⟨c :: s, rfl, List.suffix_refl _⟩
    | some d =>
      rw [hc] at h
      dsimp only at h
      split at h
      · cases h
      · split at h
        · cases h
        · obtain ⟨x, hx, hsuffix⟩ := ih h
          exact ⟨x, hx, hsuffix.trans (List.suffix_cons c s)⟩

/- What follows the digits is the rest of the line. -/
theorem parseHex_rest {line ext : Str} {n : ℕ} (hline : '\r' ∉ line)
    (h : parseHex (line ++ crlf) = some (n, ext)) :
    line ≠ [] ∧ ∃ x, ext = x ++ crlf ∧ '\r' ∉ x := by
  cases line with
  | nil => cases h
  | cons c s =>
    rw [List.cons_append, parseHex] at h
    split at h
    · cases h
    · obtain ⟨x, hx, hsuffix⟩ := hexFrom_rest (s := c :: s) h
      exact ⟨List.cons_ne_nil c s, x, hx, fun hmem => hline (hsuffix.subset hmem)⟩

/- Extensions are read alike in the line and in the buffer, if the line is in order. -/
theorem sizeLine_eq_ok {line ext : Str} {n : ℕ} (h : parseHex (line ++ crlf) = some (n, ext))
    (eol : Str) (size : ℕ) : sizeLine line = .ok size ↔ size = n ∧ ∃ u rest,
      parseChunkExtensions (ext ++ eol) = .done u rest ∧ rest.length = eol.length + 2 := by
  unfold sizeLine
  rw [h]
  dsimp only
  cases hext : parseChunkExtensions ext with
  | done u rest =>
    rw [incremental_parseChunkExtensions.done_append hext]
    dsimp only
    constructor
    · intro hok
      split at hok
      · rename_i hlen
        cases hok
        exact ⟨rfl, u, _, rfl, by rw [List.length_append]; omega⟩
      · cases hok
    · rintro ⟨rfl, u', rest', hrest, hlen⟩
      cases hrest
      rw [List.length_append] at hlen
      rw [if_pos (by omega)]
  | failed e =>
    rw [incremental_parseChunkExtensions.failed_append hext]
    exact ⟨nofun, fun h => nomatch h.2⟩
  | more =>
    refine ⟨nofun, ?_⟩
    rintro ⟨-, u, rest, hrest, hlen⟩
    exact absurd hext (incremental_parseChunkExtensions.prompt _ _ _ _ hrest (by omega))

theorem sizeLine_not_ok {line ext : Str} {n : ℕ} (h : parseHex (line ++ crlf) = some (n, ext))
    (eol : Str) (hext : ∀ u rest, parseChunkExtensions (ext ++ eol) = .done u rest →
      rest.length ≠ eol.length + 2) (size : ℕ) : sizeLine line ≠ .ok size := by
  intro hok
  obtain ⟨-, u, rest, hdone, hrest⟩ := (sizeLine_eq_ok h eol size).mp hok
  exact hext u rest hdone hrest

/-! ### A line in the grammar -/

theorem chunkLine_append (p : BasicParser) (x : Str) : chunkLine p.toParsed (chunkEnd p ++ x) =
    andThen findEol (fun line => lift (sizeLine line)) x := by
  unfold chunkLine chunkEnd
  cases p.expectCRLF <;> rfl

/- The line of a chunk is in the buffer. -/
structure AtLine (p : BasicParser) (b line eol : Str) : Prop where
  bytes : b = chunkEnd p ++ (line ++ '\r' :: '\n' :: eol)
  noCr : '\r' ∉ line

theorem AtLine.append {p : BasicParser} {b line eol : Str} (h : AtLine p b line eol) (later : Str) :
    AtLine p (b ++ later) line (eol ++ later) :=
  ⟨by rw [h.bytes, List.append_assoc, List.append_assoc]; rfl, h.noCr⟩

theorem chunkStep_header {σ : Parsed} (hσ : σ.state = .chunkHeader) (b : Str) :
    chunkStep σ b = andThen (chunkLine σ) (afterLine σ) b := by
  rw [chunkStep, andThen, chunkData, if_neg (by rw [hσ]; decide)]
  rfl

theorem AtLine.chunkStep {p : BasicParser} {b line eol : Str} (h : AtLine p b line eol)
    (hp : p.state = .chunkHeader) : chunkStep p.toParsed b =
      andThen (lift (sizeLine line)) (afterLine p.toParsed) eol := by
  rw [chunkStep_header hp, h.bytes]
  unfold andThen
  rw [chunkLine_append, andThen_of_done (findEol_append h.noCr eol)]

theorem unfinished_of_step {p : BasicParser} {b : Str} (hp : p.state = .chunkHeader)
    (h : ∀ r rest, chunkStep p.toParsed b ≠ .done r rest) : Unfinished p b := by
  intro σ tail hdone
  rw [scanMessage_chunkHeader hp] at hdone
  rcases repeated_eq_done consumes_chunkStep hdone with hstop | ⟨σ', mid, hagain, -⟩
  · exact h _ _ hstop
  · exact h _ _ hagain

/- The line is not in order. -/
theorem AtLine.unfinished {p : BasicParser} {b line eol : Str} (h : AtLine p b line eol)
    (hp : p.state = .chunkHeader) (hline : ∀ size, sizeLine line ≠ .ok size) : Unfinished p b := by
  refine unfinished_of_step hp fun r rest hdone => ?_
  rw [h.chunkStep hp] at hdone
  obtain ⟨size, mid, hlift, -⟩ := andThen_eq_done hdone
  exact hline size (lift_eq_done hlift).1

/- The limit does not matter for a line that is not in order. -/
theorem AtLine.failed {p : BasicParser} {b line eol : Str} (h : AtLine p b line eol)
    (hp : p.state = .chunkHeader) {e : HttpError} (hline : sizeLine line = .error e) :
    scanMessage p.toParsed b = .failed e := by
  rw [scanMessage_chunkHeader hp]
  refine repeated_failed ?_
  rw [h.chunkStep hp, andThen, hline]
  rfl

/-! ### The last chunk -/

theorem AtLastLine.atLine {p : BasicParser} {b line eol ext : Str}
    (h : AtLastLine p b line eol ext) : AtLine p b line eol := ⟨h.bytes, h.noCr⟩

/- Where the trailers end in the buffer. -/
theorem AtLastLine.find {p : BasicParser} {b line eol ext : Str} (h : AtLastLine p b line eol ext) :
    (findEom (b.drop p.skip)).map (· + p.skip) =
      (findEom ('\r' :: '\n' :: eol)).map (· + (chunkEnd p ++ line).length) := by
  have hfind := h.searched []
  rwa [List.append_nil, List.append_nil] at hfind

theorem AtLastLine.length {p : BasicParser} {b line eol ext : Str}
    (h : AtLastLine p b line eol ext) :
    b.length = (chunkEnd p ++ line).length + (2 + eol.length) := by
  rw [h.bytes, ← List.append_assoc, List.length_append, List.length_cons, List.length_cons]
  omega

/- The search has gone through the whole buffer in vain. -/
theorem AtLastLine.resume {p : BasicParser} {b line eol ext : Str}
    (h : AtLastLine p b line eol ext) (hfind : findEom (b.drop p.skip) = none) :
    AtLastLine { p with skip := b.length - 3 } b line eol ext := by
  refine ⟨h.bytes, h.noCr, h.size, fun later => ?_⟩
  have hnone := h.find
  rw [hfind] at hnone
  have hnone : findEom ('\r' :: '\n' :: eol) = none := Option.map_eq_none_iff.mp hnone.symm
  have hlen := h.length
  have hbytes : b ++ later = chunkEnd p ++ line ++ ('\r' :: '\n' :: eol ++ later) := by
    rw [h.bytes]
    simp only [List.append_assoc, List.cons_append]
  change (findEom ((b ++ later).drop (b.length - 3))).map (· + (b.length - 3)) =
    (findEom ('\r' :: '\n' :: eol ++ later)).map (· + (chunkEnd p ++ line).length)
  cases eol with
  | nil =>
    -- the last character of the line is searched again
    obtain ⟨init, c, hinit⟩ : ∃ init c, line = init ++ [c] :=
      ⟨_, _, (List.dropLast_append_getLast (parseHex_rest h.noCr h.size).1).symm⟩
    have hc : c ≠ '\r' := by
      rintro rfl
      exact h.noCr (by rw [hinit]; exact List.mem_append_right _ (List.mem_singleton_self _))
    have hpre : chunkEnd p ++ line = (chunkEnd p ++ init) ++ [c] := by
      rw [hinit, List.append_assoc]
    have hskip : b.length - 3 = (chunkEnd p ++ init).length := by
      rw [hlen, hpre]
      simp
    rw [hskip, hbytes, hpre, List.append_assoc, List.drop_left, List.singleton_append, findEom_eq,
      later_of_first hc, ← findEom_eq, Option.map_map]
    congr 1
    funext k
    simp only [Function.comp, List.length_append, List.length_singleton]
    omega
  | cons c eol =>
    have hskip : b.length - 3 = (chunkEnd p ++ line).length + eol.length := by
      rw [hlen, List.length_cons]
      omega
    have hresume : endOfFirst eom ('\r' :: '\n' :: c :: eol ++ later) =
        (endOfFirst eom (('\r' :: '\n' :: c :: eol ++ later).drop eol.length)).map
          (· + eol.length) := by
      refine endOfFirst_resume ?_
      rw [← findEom_eq, show eol.length + (eom.length - 1) = ('\r' :: '\n' :: c :: eol).length
        from rfl, List.take_left]
      exact hnone
    rw [hskip, hbytes, List.drop_length_add_append, findEom_eq, findEom_eq, hresume,
      Option.map_map]
    congr 1
    funext k
    exact (congrArg _ (Nat.add_comm ..)).trans (Nat.add_assoc ..).symm

/- The trailers are read to their end, and the message with them. -/
theorem AtLine.continues {p : BasicParser} {b line eol rest : Str} {σ : Parsed}
    (h : AtLine p b line eol) (hp : p.state = .chunkHeader) (hsize : sizeLine line = .ok 0)
    (hfields : ∀ later, scanFields p.toParsed (eol ++ later) = .done σ (rest ++ later)) :
    Continues p b { p with toParsed := { σ with state := .complete } } rest := by
  refine ⟨fun later => ?_, trivial⟩
  rw [scanMessage_chunkHeader hp, scanMessage_complete rfl]
  refine repeated_stop ?_
  rw [(h.append later).chunkStep hp, hsize]
  exact andThen_of_done (hfields later) _

/- The end of the trailers is not there. -/
theorem AtLastLine.wait {p : BasicParser} {b line eol ext : Str} (h : AtLastLine p b line eol ext)
    (hp : p.state = .chunkHeader) (hf : p.finalChunk = true)
    (hfind : findEom (b.drop p.skip) = none) :
    Settles p b (.needMore { p with skip := b.length - 3 } b) := by
  have hsame := h.find
  rw [hfind] at hsame
  have hnone : findEom ('\r' :: '\n' :: eol) = none := Option.map_eq_none_iff.mp hsame.symm
  refine ⟨⟨fun later => rfl, ?_⟩, unfinished_of_step hp fun r rest hdone => ?_⟩
  · exact Consistent.lastLine hp hf ⟨line, eol, ext, h.resume hfind⟩
  · change chunkStep p.toParsed b = .done r rest at hdone
    rw [h.atLine.chunkStep hp] at hdone
    obtain ⟨size, mid, hlift, hafter⟩ := andThen_eq_done hdone
    obtain ⟨hok, hmid⟩ := lift_eq_done hlift
    rw [((sizeLine_eq_ok h.size eol _).mp hok).1, hmid] at hafter
    obtain ⟨σ, rest', hfields, -⟩ := andThen_eq_done hafter
    obtain ⟨n, -, heom⟩ := scanFields_end hfields
    rw [hnone] at heom
    cases heom

/- The end that is found is the first behind the line. -/
theorem AtLastLine.found {p : BasicParser} {b line eol ext : Str} {k : ℕ}
    (h : AtLastLine p b line eol ext) (hfind : findEom (b.drop p.skip) = some k) :
    ∃ n, n ≤ eol.length ∧ b.drop (p.skip + k) = eol.drop n ∧
      findEom ('\r' :: '\n' :: eol.take n) = some (n + 2) := by
  have hsame := h.find
  rw [hfind, Option.map_some] at hsame
  obtain ⟨m, hm, hmk⟩ := Option.map_eq_some_iff.mp hsame.symm
  obtain ⟨hlow, hhigh⟩ := endOfFirst_bounds ((findEom_eq _).symm.trans hm)
  change 4 ≤ m at hlow
  rw [List.length_cons, List.length_cons] at hhigh
  obtain ⟨n, rfl⟩ := Nat.exists_eq_add_of_le' (show 2 ≤ m by omega)
  refine ⟨n, by omega, ?_, ?_⟩
  · have hsplit : p.skip + k = (chunkEnd p ++ line).length + (n + 2) := by omega
    rw [hsplit, h.bytes, ← List.append_assoc, List.drop_length_add_append]
    rfl
  · rw [findEom_eq] at hm ⊢
    refine endOfFirst_within (t := eol.drop n) ?_ ?_ (List.cons_ne_nil _ _)
    · rw [List.cons_append, List.cons_append, List.take_append_drop]
      exact hm
    · rw [List.length_cons, List.length_cons, List.length_take]
      omega

/- The trailers up to their end in the buffer. -/
theorem AtLine.trailers {p : BasicParser} {b line eol : Str} {n : ℕ} (h : AtLine p b line eol)
    (hp : p.state = .chunkHeader) (hok : sizeLine line = .ok 0) (hn : n ≤ eol.length)
    (hwindow : findEom ('\r' :: '\n' :: eol.take n) = some (n + 2)) :
    Settles p b (match advance fieldStep p.toParsed (eol.take n) with
      | .failed e => .failed e
      | .waiting σ _ => .needMore { p with toParsed := σ } b
      | .ended σ _ => .next { p with toParsed := { σ with state := .complete } } (eol.drop n)) := by
  cases hadv : advance fieldStep p.toParsed (eol.take n) with
  | failed e =>
    intro later
    refine unfinished_of_step hp fun r rest' hdone => ?_
    rw [(h.append later).chunkStep hp, hok] at hdone
    obtain ⟨size, mid, hlift, hafter⟩ := andThen_eq_done hdone
    cases hlift
    obtain ⟨σ, tail, hfields, -⟩ := andThen_eq_done hafter
    have hfail : scanFields p.toParsed (eol.take n ++ (eol.drop n ++ later)) = .failed e :=
      repeated_of_failed consumes_fieldStep incremental_fieldStep hadv _
    rw [← List.append_assoc, List.take_append_drop] at hfail
    have hsame := hfail.symm.trans hfields
    cases hsame
  | waiting σ tail =>
    obtain ⟨hwait, hmore, -⟩ := repeated_of_waiting consumes_fieldStep incremental_fieldStep hadv []
    rw [List.append_nil, List.append_nil, repeated_more hmore] at hwait
    have hnone := scanFields_eq_more hwait
    rw [hwindow] at hnone
    cases hnone
  | ended σ tail =>
    have hend := repeated_of_ended consumes_fieldStep incremental_fieldStep hadv
    have htail : tail = [] := by
      have hfields := hend []
      rw [List.append_nil, List.append_nil] at hfields
      obtain ⟨m, hm, heom⟩ := scanFields_end hfields
      rw [hwindow] at heom
      rw [List.length_take] at hm
      have hnm := Option.some.inj heom
      exact List.length_eq_zero_iff.mp (by omega)
    refine ⟨h.continues hp hok fun later => ?_, ?_⟩
    · have hfields := hend (eol.drop n ++ later)
      rw [← List.append_assoc, List.take_append_drop, htail, List.nil_append] at hfields
      exact hfields
    · rw [h.bytes, List.length_append, List.length_append, List.length_cons, List.length_cons,
        List.length_drop]
      omega

theorem putFinalChunk_settles {p : BasicParser} {b line eol ext : Str}
    (hp : p.state = .chunkHeader) (hf : p.finalChunk = true) (h : AtLastLine p b line eol ext) :
    Settles p b (putFinalChunk p b (ext ++ eol) eol) := by
  unfold putFinalChunk
  cases hfind : findEom (b.drop p.skip) with
  | none => exact h.wait hp hf hfind
  | some k =>
    dsimp only
    cases hext : parseChunkExtensions (ext ++ eol) with
    | failed e =>
      refine fun later => (h.atLine.append later).unfinished hp
        (sizeLine_not_ok h.size eol fun u rest hdone => ?_)
      rw [hext] at hdone
      cases hdone
    | more =>
      refine ⟨⟨fun later => rfl, Consistent.lastLine hp hf ⟨line, eol, ext, h⟩⟩, ?_⟩
      refine h.atLine.unfinished hp (sizeLine_not_ok h.size eol fun u rest hdone => ?_)
      rw [hext] at hdone
      cases hdone
    | done u rest =>
      dsimp only
      split
      · rename_i hne
        refine fun later => (h.atLine.append later).unfinished hp
          (sizeLine_not_ok h.size eol fun u' rest' hdone => ?_)
        rw [hext] at hdone
        cases hdone
        exact hne
      · rename_i hrest
        have hok : sizeLine line = .ok 0 :=
          (sizeLine_eq_ok h.size eol _).mpr ⟨rfl, u, rest, hext, not_not.mp hrest⟩
        obtain ⟨n, hn, hdrop, hwindow⟩ := h.found hfind
        have htake : eol.length - (eol.drop n).length = n := by
          rw [List.length_drop]
          omega
        rw [hdrop, htake]
        exact h.atLine.trailers hp hok hn hwindow

/-! ### The line of any chunk -/

theorem chunkEnd_strip {p : BasicParser} {b digits : Str}
    (h : (if p.expectCRLF then parseCrlf b else some b) = some digits) :
    b = chunkEnd p ++ digits := by
  unfold chunkEnd
  split at h
  · rename_i hcrlf
    rw [if_pos hcrlf]
    unfold parseCrlf at h
    split at h
    · cases h
      rfl
    · cases h
  · rename_i hcrlf
    rw [if_neg hcrlf]
    cases h
    rfl

/- The end of the chunk before is not there. -/
theorem not_chunkEnd {p : BasicParser} {b x later : Str} (hlen : 2 ≤ b.length)
    (h : (if p.expectCRLF then parseCrlf b else some b) = none) : b ++ later ≠ chunkEnd p ++ x := by
  intro heq
  unfold chunkEnd at heq
  split at h
  · rename_i hcrlf
    rw [if_pos hcrlf] at heq
    match b, hlen with
    | c :: d :: b, _ =>
      obtain ⟨hc, heq⟩ := List.cons.inj heq
      obtain ⟨hd, -⟩ := List.cons.inj heq
      rw [hc, hd] at h
      cases h
  · cases h

theorem chunkLine_eq_done {p : BasicParser} {b mid : Str} {size : ℕ}
    (h : chunkLine p.toParsed b = .done size mid) : ∃ line, AtLine p b line mid := by
  obtain ⟨_, b1, hend, h1⟩ := andThen_eq_done h
  obtain ⟨line, b2, heol, h2⟩ := andThen_eq_done h1
  obtain ⟨-, rfl⟩ := lift_eq_done h2
  obtain ⟨rfl, hline⟩ := findEol_eq_done heol
  refine ⟨line, ?_, hline⟩
  unfold chunkEnd
  split at hend
  · rename_i hcrlf
    rw [if_pos hcrlf]
    obtain ⟨c, b3, hitem, h3⟩ := andThen_eq_done hend
    obtain ⟨_, b4, hcr, h4⟩ := andThen_eq_done h3
    obtain ⟨d, b5, hitem', h5⟩ := andThen_eq_done h4
    obtain ⟨hc, rfl⟩ := require_eq_done hcr
    obtain ⟨hd, rfl⟩ := require_eq_done h5
    rw [item_eq_done hitem, item_eq_done hitem', beq_iff_eq.mp hc, beq_iff_eq.mp hd]
    rfl
  · rename_i hcrlf
    rw [if_neg hcrlf]
    cases hend
    rfl

/- Without the line of the chunk the message is not complete. -/
theorem unfinished_of_line {p : BasicParser} {b : Str} (hp : p.state = .chunkHeader)
    (h : ∀ line eol, ¬ AtLine p b line eol) : Unfinished p b := by
  refine unfinished_of_step hp fun r rest hdone => ?_
  rw [chunkStep_header hp] at hdone
  obtain ⟨size, mid, hline, -⟩ := andThen_eq_done hdone
  obtain ⟨line, hat⟩ := chunkLine_eq_done hline
  exact h line mid hat

theorem AtLine.findEol {p : BasicParser} {digits line eol : Str}
    (h : AtLine p (chunkEnd p ++ digits) line eol) : findEol digits = .done line eol := by
  rw [List.append_cancel_left h.bytes]
  exact findEol_append h.noCr eol

/- Where the line is searched for, its beginning has been searched before. -/
theorem Searched.split {p : BasicParser} {digits : Str} (h : Searched p (chunkEnd p ++ digits)) :
    ∃ before, '\r' ∉ before ∧ digits = before ++ (chunkEnd p ++ digits).drop p.skip := by
  obtain ⟨hle, hor⟩ := h
  obtain ⟨n, hn⟩ := Nat.exists_eq_add_of_le hle
  refine ⟨digits.take n, ?_, ?_⟩
  · rcases hor with heq | ⟨-, hnot⟩
    · have hzero : n = 0 := by omega
      rw [hzero]
      exact List.not_mem_nil
    · rw [hn, List.take_length_add_append, List.drop_left] at hnot
      exact hnot
  · rw [hn, List.drop_length_add_append, List.take_append_drop]

/- Too little is left behind what has been searched. -/
theorem Searched.few {p : BasicParser} {b line eol : Str} (h : Searched p b)
    (hb : b.length < p.skip + 2) : ¬ AtLine p b line eol := by
  intro hat
  obtain ⟨hle, hor⟩ := h
  have hbytes := hat.bytes
  have hlen := congrArg List.length hbytes
  rw [List.length_append, List.length_append, List.length_cons, List.length_cons] at hlen
  rcases hor with heq | ⟨hskip, hnot⟩
  · omega
  · refine hnot ?_
    obtain ⟨n, hn⟩ := Nat.exists_eq_add_of_le hle
    rw [hbytes, hn, List.take_length_add_append, List.drop_left,
      show n = line.length + 1 + (n - line.length - 1) by omega, Nat.add_assoc,
      List.take_length_add_append, Nat.add_comm 1, List.take_succ_cons]
    exact List.mem_append_right _ (List.mem_cons_self ..)

/- The line of the last chunk has been found before. -/
theorem putChunkHeader_final {p : BasicParser} {b : Str} (hp : p.state = .chunkHeader)
    (hf : p.finalChunk = true) (h : LastLine p b) : Settles p b (putChunkHeader p b) := by
  obtain ⟨line, eol, ext, h⟩ := h
  obtain ⟨-, x, hx, hnot⟩ := parseHex_rest h.noCr h.size
  have hdigits : (if p.expectCRLF then (parseCrlf b).getD b else b) =
      line ++ '\r' :: '\n' :: eol := by
    rw [h.bytes]
    unfold chunkEnd
    cases p.expectCRLF <;> rfl
  have heol : findEol (ext ++ eol) = .done x eol := by
    rw [hx, List.append_assoc]
    exact findEol_append hnot eol
  unfold putChunkHeader
  rw [if_pos hf]
  dsimp only
  rw [hdigits, parseHex_append, h.size, Option.map_some, Option.map_some, Option.getD_some]
  dsimp only
  rw [heol]
  exact putFinalChunk_settles hp hf h

/- Data follow the line. -/
theorem AtLine.data {p : BasicParser} {b line eol : Str} {size : ℕ} (h : AtLine p b line eol)
    (hp : p.state = .chunkHeader) (hf : p.finalChunk = false) (hpos : size ≠ 0)
    (hsize : sizeLine line = .ok size) (hlimit : ¬ p.bodyLimit < size) :
    Continues p b { p with
      bodyLimit := p.bodyLimit - size
      len := size
      skip := 2
      expectCRLF := true
      state := .chunkBody } eol := by
  refine ⟨fun later => ?_, Nat.pos_of_ne_zero hpos, rfl, rfl, hf⟩
  rw [scanMessage_chunkHeader hp, scanMessage_chunkBody rfl]
  refine repeated_again consumes_chunkStep ?_
  rw [(h.append later).chunkStep hp, hsize]
  change afterLine p.toParsed size (eol ++ later) = _
  rw [afterLine, if_neg hpos, if_neg hlimit]
  rfl

/- No line ends where it is searched for. -/
theorem Searched.wait {p : BasicParser} {digits : Str} (h : Searched p (chunkEnd p ++ digits))
    (hp : p.state = .chunkHeader) (hf : p.finalChunk = false)
    (hlong : (chunkEnd p).length < (chunkEnd p ++ digits).length)
    (hmore : findEol digits = .more) :
    Settles p (chunkEnd p ++ digits)
      (.needMore { p with skip := (chunkEnd p ++ digits).length - 1 } (chunkEnd p ++ digits)) := by
  refine ⟨⟨fun later => rfl, ?_⟩, unfinished_of_line hp fun line eol hat => ?_⟩
  · have hle := h.1
    rw [List.length_append] at hlong
    refine Consistent.searched (.inr hp) hf ⟨?_, .inr ⟨Nat.sub_le _ _, ?_⟩⟩
    · change (chunkEnd p).length ≤ (chunkEnd p ++ digits).length - 1
      rw [List.length_append]
      omega
    · change '\r' ∉ ((chunkEnd p ++ digits).take ((chunkEnd p ++ digits).length - 1)).drop
        (chunkEnd p).length
      rw [List.length_append, Nat.add_sub_assoc (by omega), List.take_length_add_append,
        List.drop_left]
      exact findEol_eq_more hmore
  · have hwhole := (AtLine.mk hat.bytes hat.noCr : AtLine p _ line eol).findEol
    rw [hmore] at hwhole
    cases hwhole

theorem AtLine.consistent {p q : BasicParser} {b line eol : Str} (h : AtLine p b line eol)
    (hq : q.state = .chunkHeader) (hf : q.finalChunk = false) (hend : chunkEnd q = chunkEnd p)
    (hskip : q.skip = (chunkEnd p ++ line).length) : Consistent q b := by
  have hbytes : b = (chunkEnd p ++ line) ++ '\r' :: '\n' :: eol := by
    rw [h.bytes, List.append_assoc]
  refine Consistent.searched (.inr hq) hf ⟨?_, .inr ⟨?_, ?_⟩⟩ <;> rw [hskip]
  · rw [hend, List.length_append]
    exact Nat.le_add_right _ _
  · rw [hbytes]
    exact (List.prefix_append _ _).length_le
  · rw [hend, hbytes, List.take_left, List.drop_left]
    exact h.noCr

/- The last chunk: the search for the end of the trailers begins at the end of its line. -/
theorem AtLine.last {p : BasicParser} {b line eol ext : Str} (h : AtLine p b line eol)
    (hp : p.state = .chunkHeader) (hhex : parseHex (line ++ crlf) = some (0, ext)) :
    Settles p b (putFinalChunk { p with
      skip := (chunkEnd p ++ line).length, finalChunk := true } b (ext ++ eol) eol) := by
  refine (putFinalChunk_settles (p := { p with
    skip := (chunkEnd p ++ line).length, finalChunk := true }) hp rfl
    ⟨h.bytes, h.noCr, hhex, fun later => ?_⟩).congr rfl
  have hdrop : (b ++ later).drop (chunkEnd p ++ line).length = '\r' :: '\n' :: eol ++ later := by
    rw [h.bytes, ← List.append_assoc, List.append_assoc _ _ later, List.drop_left]
  exact congrArg (Option.map _) (congrArg findEom hdrop)

/- A chunk that the limit does not allow. -/
theorem AtLine.tooLarge {p : BasicParser} {b line eol ext : Str} {size : ℕ}
    (h : AtLine p b line eol) (hp : p.state = .chunkHeader)
    (hhex : parseHex (line ++ crlf) = some (size, ext)) (hpos : size ≠ 0)
    (hlimit : p.bodyLimit < size) (later : Str) : Unfinished p (b ++ later) := by
  refine unfinished_of_step hp fun r rest hstep => ?_
  rw [(h.append later).chunkStep hp] at hstep
  obtain ⟨size', mid, hlift, hafter⟩ := andThen_eq_done hstep
  rw [((sizeLine_eq_ok hhex eol size').mp (lift_eq_done hlift).1).1, afterLine, if_neg hpos,
    if_pos hlimit] at hafter
  cases hafter

/- The line has ended within an extension, and stays so. -/
theorem AtLine.withinExtension {p : BasicParser} {b line eol ext : Str} {size : ℕ}
    (h : AtLine p b line eol) (hp : p.state = .chunkHeader) (hf : p.finalChunk = false)
    (hhex : parseHex (line ++ crlf) = some (size, ext))
    (hscan : parseChunkExtensions (ext ++ eol) = .more) :
    Settles p b (.needMore { p with
      bodyLimit := p.bodyLimit - size
      skip := (chunkEnd p ++ line).length } b) := by
  have hnot : ∀ size', sizeLine line ≠ .ok size' := by
    refine sizeLine_not_ok hhex eol fun u rest hdone => ?_
    rw [hscan] at hdone
    cases hdone
  obtain ⟨e, hbad⟩ : ∃ e, sizeLine line = .error e := by
    cases hline : sizeLine line with
    | error e => exact ⟨e, rfl⟩
    | ok size' => exact absurd hline (hnot size')
  have hat : AtLine { p with
      bodyLimit := p.bodyLimit - size
      skip := (chunkEnd p ++ line).length } b line eol := ⟨h.bytes, h.noCr⟩
  refine ⟨⟨fun later => ?_, h.consistent hp hf rfl rfl⟩, hat.unfinished hp hnot⟩
  rw [(h.append later).failed hp hbad]
  exact ((hat.append later).failed hp hbad).symm

/- The line is not in order, and nothing that comes later changes that. -/
theorem AtLine.bad {p : BasicParser} {b line eol ext : Str} {size : ℕ} (h : AtLine p b line eol)
    (hp : p.state = .chunkHeader) (hhex : parseHex (line ++ crlf) = some (size, ext))
    (hext : ∀ u rest, parseChunkExtensions (ext ++ eol) = .done u rest →
      rest.length ≠ eol.length + 2) (later : Str) : Unfinished p (b ++ later) :=
  (h.append later).unfinished hp (sizeLine_not_ok hhex _ hext)

/- A line with the size of a chunk that the limit allows. -/
theorem AtLine.sized {p : BasicParser} {b line eol ext : Str} {size : ℕ}
    (h : AtLine p b line eol) (hp : p.state = .chunkHeader) (hf : p.finalChunk = false)
    (hhex : parseHex (line ++ crlf) = some (size, ext)) (hpos : size ≠ 0)
    (hlimit : ¬ p.bodyLimit < size) :
    Settles p b (match parseChunkExtensions (ext ++ eol) with
      | .failed e => .failed e
      | .more => .needMore { p with
          bodyLimit := p.bodyLimit - size
          skip := (chunkEnd p ++ line).length } b
      | .done _ rest =>
        if rest.length ≠ eol.length + 2 then .failed .badChunkExtension
        else
          .next { p with
            bodyLimit := p.bodyLimit - size
            len := size
            skip := 2
            expectCRLF := true
            state := .chunkBody } eol) := by
  cases hscan : parseChunkExtensions (ext ++ eol) with
  | failed e =>
    refine h.bad hp hhex fun u rest hdone => ?_
    rw [hscan] at hdone
    cases hdone
  | more => exact h.withinExtension hp hf hhex hscan
  | done u rest =>
    dsimp only
    split
    · rename_i hne
      refine h.bad hp hhex fun u' rest' hdone => ?_
      rw [hscan] at hdone
      cases hdone
      exact hne
    · rename_i hrest
      have hok : sizeLine line = .ok size :=
        (sizeLine_eq_ok hhex eol _).mpr ⟨rfl, u, rest, hscan, not_not.mp hrest⟩
      refine ⟨h.data hp hf hpos hok hlimit, ?_⟩
      rw [h.bytes, List.length_append, List.length_append, List.length_cons, List.length_cons]
      omega

/- The end of a line that is not in order. -/
theorem unfinished_of_eol {p : BasicParser} {digits : Str} {e : HttpError} (hp : p.state = .chunkHeader)
    (hfail : findEol digits = .failed e) (later : Str) :
    Unfinished p (chunkEnd p ++ digits ++ later) := by
  refine unfinished_of_line hp fun line eol hat => ?_
  rw [List.append_assoc] at hat
  have hwhole := hat.findEol
  rw [incremental_findEol.failed_append hfail] at hwhole
  cases hwhole

/- The line that is found, from where it was searched for. -/
theorem Searched.found {p : BasicParser} {digits line' eol : Str}
    (h : Searched p (chunkEnd p ++ digits))
    (heol : ResponseParser.findEol ((chunkEnd p ++ digits).drop p.skip) = .done line' eol) :
    ∃ line, AtLine p (chunkEnd p ++ digits) line eol ∧ digits = line ++ '\r' :: '\n' :: eol ∧
      (chunkEnd p ++ digits).length - eol.length - 2 = (chunkEnd p ++ line).length := by
  obtain ⟨before, hbefore, hdigits⟩ := h.split
  have hdone := (findEol_text (b := (chunkEnd p ++ digits).drop p.skip) hbefore).1 _ _ heol
  rw [← hdigits] at hdone
  obtain ⟨hline, hnot⟩ := findEol_eq_done hdone
  refine ⟨before ++ line', ⟨congrArg (chunkEnd p ++ ·) hline, hnot⟩, hline, ?_⟩
  have hlen := congrArg List.length hline
  rw [List.length_append, List.length_cons, List.length_cons] at hlen
  rw [List.length_append, List.length_append]
  omega

theorem putChunkHeader_settles {p : BasicParser} {b : Str} (hp : p.state = .chunkHeader)
    (hcons : Consistent p b) : Settles p b (putChunkHeader p b) := by
  have hinv := hcons
  rw [Consistent, hp] at hinv
  dsimp only at hinv
  by_cases hf : p.finalChunk = true
  · rw [if_pos hf] at hinv
    exact putChunkHeader_final hp hf hinv
  rw [if_neg hf] at hinv
  have hf' : p.finalChunk = false := eq_false_of_ne_true hf
  unfold putChunkHeader
  rw [if_neg hf]
  split
  · rename_i hfew
    exact ⟨⟨fun later => rfl, hcons⟩, unfinished_of_line hp fun line eol => hinv.few hfew⟩
  rename_i henough
  cases hstrip : (if p.expectCRLF then parseCrlf b else some b) with
  | none =>
    exact fun later => unfinished_of_line hp fun line eol hat =>
      not_chunkEnd (by omega) hstrip hat.bytes
  | some digits =>
    obtain rfl := chunkEnd_strip hstrip
    obtain ⟨before, hbefore, hdigits⟩ := hinv.split
    obtain ⟨-, hmore, hfail⟩ := findEol_text (b := (chunkEnd p ++ digits).drop p.skip) hbefore
    rw [← hdigits] at hmore hfail
    dsimp only
    cases heol : findEol ((chunkEnd p ++ digits).drop p.skip) with
    | failed e => exact unfinished_of_eol hp (hfail e heol)
    | more =>
      have hle := hinv.1
      exact hinv.wait hp hf' (by omega) (hmore heol)
    | done line' eol =>
      obtain ⟨line, hat, hline, hskip⟩ := hinv.found heol
      dsimp only
      rw [hskip]
      have hhex : parseHex digits = (parseHex (line ++ crlf)).map fun r => (r.1, r.2 ++ eol) := by
        rw [hline, parseHex_append]
      rw [hhex]
      cases hsize : parseHex (line ++ crlf) with
      | none =>
        refine fun later => (hat.append later).unfinished hp fun size hok => ?_
        rw [sizeLine, hsize] at hok
        cases hok
      | some r =>
        obtain ⟨size, ext⟩ := r
        rw [Option.map_some]
        dsimp only
        by_cases hzero : size = 0
        · rw [if_pos hzero]
          exact hat.last hp (hzero ▸ hsize)
        rw [if_neg hzero]
        by_cases hlimit : p.bodyLimit < size
        · rw [if_pos hlimit]
          exact hat.tooLarge hp hsize hzero hlimit
        rw [if_neg hlimit]
        exact hat.sized hp hf' hsize hzero hlimit

end RestClient.ResponseParser
