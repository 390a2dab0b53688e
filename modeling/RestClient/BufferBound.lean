import RestClient.BufferedReads

/-!
# How large the buffer becomes

The header of a response is limited, and its body leaves the buffer as it comes. What is not
limited is the line of a chunk, or the trailers: the read waits for their end with all of it in
the buffer.
-/

namespace RestClient.BufferedConnection
open Machine ResponseParser FlatBuffer
variable {HandlerType : Type}

/-- The allocation is at most twice the limit of the header, or twice what some state of the
run has held of a line of a chunk, whichever is larger; and a read fails for want of room only
when the buffer holds its maximum. -/
theorem memory_bounded [Inhabited HandlerType] (limit : ℕ) (mHost : Str) (pieces : List Str)
    (as : List (Memory × ConnectionAction HandlerType)) (s : BufferedConnection HandlerType)
    (log : List (Event HandlerType)) (h : Run step (initial limit mHost pieces) as s log) :
    (∃ pre s₁ log₁, pre <+: as ∧ Run step (initial limit mHost pieces) pre s₁ log₁ ∧
      s.mBuffer.capacity ≤ 2 * max headerLimit (chunkLineHeld s₁.read s₁.mBuffer)) ∧
    ∀ p, s.read = .overflow p → limit ≤ s.mBuffer.size := by
  constructor
  · induction h with
    | nil => exact ⟨[], _, [], List.prefix_rfl, .nil, Nat.zero_le _⟩
    | @snoc as s log a s' es hr hs ih =>
      obtain ⟨r, -, htracks, -, -⟩ := tracks_of_run hr
      have hgrown := (htracks.step hs).grown
      obtain ⟨pre, s₁, log₁, hpre, hr₁, hle⟩ := ih
      by_cases hkept : s'.mBuffer.capacity ≤ s.mBuffer.capacity
      · exact ⟨pre, s₁, log₁, hpre.trans (List.prefix_append _ _), hr₁, hkept.trans hle⟩
      · exact ⟨as ++ [a], s', log ++ es, List.prefix_rfl, hr.snoc hs, by omega⟩
  · intro p hp
    obtain ⟨r, -, htracks, -, -⟩ := tracks_of_run h
    cases htracks.read with
    | idle b hr => cases hp.symm.trans hr
    | busy r hm =>
      rw [hp] at hm
      cases hm with
      | overflow _ hfull => exact hfull

/- The first allocation has 512 bytes; all of them wait for the end of a start line. -/
theorem memory_bounded_startLine : ∃ (as : List (Memory × ConnectionAction ℕ))
    (s : BufferedConnection ℕ), s.mBuffer.capacity = 1024 ∧
      (∃ pre s₁ log₁, pre <+: as ∧
        Run step (initial 4096 "h".toList ["HTTP/1.1 200 ".toList ++ List.replicate 600 'a']) pre
          s₁ log₁ ∧
        s.mBuffer.capacity ≤ 2 * max headerLimit (chunkLineHeld s₁.read s₁.mBuffer)) ∧
      ∀ p, s.read = .overflow p → 4096 ≤ s.mBuffer.size := by
  let fresh : Memory := fun n => Vector.replicate n '?'
  let actions : List (ConnectionAction ℕ) := Client.startUp.map .client ++ [.arrive]
  obtain ⟨s, log, hr, hcap⟩ := run_of_observed step
    (initial 4096 "h".toList ["HTTP/1.1 200 ".toList ++ List.replicate 600 'a'])
    (actions.map fun a => (fresh, a)) (fun r => r.1.mBuffer.capacity)
    (show _ = some 1024 by decide +kernel)
  exact ⟨_, s, hcap, memory_bounded 4096 "h".toList _ _ s log hr⟩

/-! ### A line that does not end -/

/- What arrives later is not looked at. -/
theorem step_arriving {s s' : BufferedConnection HandlerType} {fresh : Memory}
    {a : ConnectionAction HandlerType} {es : List (Event HandlerType)}
    (ha : a ≠ .endOfStream) (h : step s (fresh, a) = some (s', es)) (later : List Str) :
    step { s with arriving := s.arriving ++ later } (fresh, a) =
      some ({ s' with arriving := s'.arriving ++ later }, es) := by
  cases move_of_step h with
  | client a c es hpermits hs => simp only [step, hpermits, hs, if_true, Option.map_some]
  | arrive p chunk rest b room hr hw hc hroom hb =>
    have hunread : unread chunk room (rest ++ later) = unread chunk room rest ++ later := by
      unfold unread
      split <;> rfl
    rw [hroom] at hb hunread
    simp only [step, hr, hw, List.cons_append, if_pos hc, hb, Option.map_some, hunread, hroom]
  | endOfStream => exact absurd rfl ha
  | readComplete m c es hr hs => simp only [step, hr, complete, hs, Option.map_some]
  | readFails ec response c es hr he hs =>
    simp only [step, if_neg he, hr, if_true, complete, hs, Option.map_some]

theorem run_arriving {s s' : BufferedConnection HandlerType}
    {as : List (Memory × ConnectionAction HandlerType)} {log : List (Event HandlerType)}
    (h : Run step s as s' log) (has : ∀ a ∈ as, a.2 ≠ .endOfStream) (later : List Str) :
    Run step { s with arriving := s.arriving ++ later } as
      { s' with arriving := s'.arriving ++ later } log := by
  induction h with
  | nil => exact .nil
  | snoc _ hs ih =>
    obtain ⟨has, ha⟩ := List.forall_mem_append.mp has
    exact (ih has).snoc (step_arriving (ha _ (List.mem_singleton_self _)) hs later)

/- The parser is at the line of the first chunk. -/
structure AtFirstLine (p : BasicParser) : Prop where
  state : p.state = .chunkHeader0 ∨ p.state = .chunkHeader
  first : p.expectCRLF = false
  size : p.finalChunk = false

theorem readBuffer_line {p : BasicParser} {b : Str} (h : AtFirstLine p) (hb : b ≠ [])
    (hcr : '\r' ∉ b) : ∃ p', readBuffer p b = .waiting p' b ∧ AtFirstLine p' ∧
      p'.state = .chunkHeader := by
  have hmore : findEol (b.drop p.skip) = .more := by
    have hcr' : '\r' ∉ b.drop p.skip := fun hmem => hcr (List.mem_of_mem_drop hmem)
    have h := (findEol_text hcr' (b := [])).2.1 rfl
    rwa [List.append_nil] at h
  have hline : ∀ q : BasicParser, q.skip = p.skip → q.expectCRLF = false → q.finalChunk = false →
      q.state = .chunkHeader → ∃ p', putChunkHeader q b = .needMore p' b ∧ AtFirstLine p' ∧
        p'.state = .chunkHeader := by
    intro q hskip hfirst hsize hstate
    unfold putChunkHeader
    rw [hsize, hfirst]
    simp only [Bool.false_eq_true, if_false]
    split
    · exact ⟨q, rfl, ⟨.inr hstate, hfirst, hsize⟩, hstate⟩
    · rw [hskip, hmore]
      exact ⟨_, rfl, ⟨.inr hstate, hfirst, rfl⟩, hstate⟩
  obtain ⟨p', hput, hat, hstate⟩ :=
    hline { p with state := .chunkHeader } rfl h.first h.size rfl
  refine ⟨p', ?_, hat, hstate⟩
  have hturn : dispatch p b = .needMore p' b := by
    unfold dispatch
    rcases h.state with hp | hp <;> rw [hp] <;> exact hput
  unfold readBuffer put putLoop
  rw [if_neg hb, hturn]

/- The read waits for the rest of the line, with its beginning in the buffer. -/
structure HoldsLine (limit : ℕ) (s : BufferedConnection HandlerType) (line : Str) : Prop where
  read : ∃ p, s.read = .waiting p ∧ AtFirstLine p ∧ (line ≠ [] → p.state = .chunkHeader)
  data : s.mBuffer.data = line
  room : 0 < s.mBuffer.last_ - s.mBuffer.out_
  sized : Sized limit s.mBuffer
  noCr : '\r' ∉ line
  canHandle : s.client.canHandle

theorem HoldsLine.step {limit : ℕ} {s : BufferedConnection HandlerType} {line rest : Str}
    (h : HoldsLine limit s line) (hw : s.arriving = [rest]) (hne : rest ≠ []) (hcr : '\r' ∉ rest)
    (hfits : line.length + rest.length < limit) (fresh : Memory) :
    ∃ s' taken left, 0 < taken.length ∧ rest = taken ++ left ∧
      step s (fresh, .arrive) = some (s', []) ∧ HoldsLine limit s' (line ++ taken) ∧
        s'.arriving = if left = [] then [] else [left] := by
  obtain ⟨p, hread, hat, -⟩ := h.read
  generalize hroom : s.mBuffer.last_ - s.mBuffer.out_ = room
  have hpos : 0 < room := hroom ▸ h.room
  have htaken : (rest.take room).length ≤ s.mBuffer.last_ - s.mBuffer.out_ := by
    rw [List.length_take, hroom]
    exact Nat.min_le_left _ _
  obtain ⟨b, hb, -⟩ := write_spec htaken
  obtain ⟨hdata, hsized, -⟩ := Mirrors.received htaken h.sized hb
  rw [h.data] at hdata
  have hsplit := List.take_append_drop room rest
  have hlong : 0 < (rest.take room).length := by
    rw [List.length_take]
    exact lt_min hpos (List.length_pos_iff.mpr hne)
  have hnonempty : line ++ rest.take room ≠ [] :=
    List.append_ne_nil_of_right_ne_nil _ (List.length_pos_iff.mp hlong)
  have hnoCr : '\r' ∉ line ++ rest.take room := by
    rw [List.mem_append]
    exact not_or.mpr ⟨h.noCr, fun hmem => hcr (List.mem_of_mem_take hmem)⟩
  obtain ⟨p', hparse, hat', hstate⟩ := readBuffer_line hat hnonempty hnoCr
  -- nothing is consumed
  obtain ⟨hsized₀, -⟩ := hsized.consume 0
  obtain ⟨b', hdo, hdata', hsized', -⟩ := doRead_spec hsized₀ fresh p'
  rw [consume_data, List.drop_zero, hdata] at hdata'
  have hsize : (b.commit (rest.take room).length).size = (line ++ rest.take room).length := by
    rw [← length_data, hdata]
  have hread' : parse fresh p (b.commit (rest.take room).length) = (.waiting p', b') ∧
      0 < b'.last_ - b'.out_ := by
    unfold parse
    rw [hdata, hparse, hsize]
    dsimp only
    rw [Nat.sub_self]
    rcases hdo with ⟨hdo, hroom'⟩ | ⟨-, hfull⟩
    · exact ⟨hdo, hroom'⟩
    · rw [← length_data, hdata', List.length_append, List.length_take] at hfull
      omega
  refine ⟨⟨s.client, b', .waiting p', unread rest room []⟩, rest.take room, rest.drop room,
    hlong, hsplit.symm, ?_, ⟨⟨p', rfl, hat', fun _ => hstate⟩, hdata', hread'.2, hsized', hnoCr,
      h.canHandle⟩, rfl⟩
  simp only [BufferedConnection.step, hread, hw, if_pos h.canHandle, hroom, hb, Option.map_some,
    hread'.1]

theorem HoldsLine.run {limit : ℕ} {s : BufferedConnection HandlerType} {line rest : Str}
    (h : HoldsLine limit s line) (hw : s.arriving = if rest = [] then [] else [rest])
    (hcr : '\r' ∉ rest) (hfits : line.length + rest.length < limit) (fresh : Memory) :
    ∃ as s', Run BufferedConnection.step s as s' [] ∧ HoldsLine limit s' (line ++ rest) := by
  induction hn : rest.length using Nat.strong_induction_on generalizing s line rest with
  | _ n ih =>
    by_cases hne : rest = []
    · rw [hne, List.append_nil]
      exact ⟨[], s, .nil, h⟩
    · rw [if_neg hne] at hw
      obtain ⟨s₁, taken, left, hpos, rfl, hs, h₁, hw₁⟩ := h.step hw hne hcr hfits fresh
      rw [List.length_append] at hn hfits
      obtain ⟨as, s', hr, h'⟩ := ih left.length (by omega) h₁ hw₁
        (fun hmem => hcr (List.mem_append_right _ hmem))
        (by rw [List.length_append]; omega) rfl
      refine ⟨_, s', (Run.single hs).append hr, ?_⟩
      rw [← List.append_assoc]
      exact h'

/- `std::allocator<char>::max_size()`. -/
def charMaxSize : ℕ := 9223372036854775807

/- The read has consumed the header. -/
def headerRead (s : BufferedConnection ℕ) : Bool :=
  decide (s.client.canHandle ∧ s.arriving = [] ∧ s.mBuffer.data = [] ∧
    0 < s.mBuffer.last_ - s.mBuffer.out_ ∧ s.mBuffer.max_ = charMaxSize ∧
    s.mBuffer.allocMax = charMaxSize) &&
  match s.read with
  | .waiting p => p.state == .chunkHeader0 && !p.expectCRLF && !p.finalChunk
  | _ => false

theorem holdsLine_of_headerRead {s : BufferedConnection ℕ} (h : headerRead s = true)
    (arriving : List Str) : HoldsLine charMaxSize { s with arriving := arriving } [] := by
  obtain ⟨hs, hread⟩ := Bool.and_eq_true_iff.mp h
  obtain ⟨hc, -, hdata, hroom, hmax, halloc⟩ := of_decide_eq_true hs
  refine ⟨?_, hdata, hroom, ⟨hmax, halloc⟩, List.not_mem_nil, hc⟩
  cases hr : s.read <;> rw [hr] at hread <;> try cases hread
  rename_i p
  simp only [Bool.and_eq_true, beq_iff_eq, Bool.not_eq_true'] at hread
  exact ⟨p, rfl, ⟨.inl hread.1.1, hread.1.2, hread.2⟩, fun hne => absurd rfl hne⟩

/-- A server can make the client hold as many bytes as it likes: the line of the first chunk
does not end, and the read goes on waiting for its end. -/
theorem chunk_line_unlimited (n : ℕ) (hn : n < charMaxSize) :
    ∃ (pieces : List Str) (as : List (Memory × ConnectionAction ℕ)) (s : BufferedConnection ℕ)
      (log : List (Event ℕ)), Run step (initial charMaxSize "h".toList pieces) as s log ∧
        (∃ p, s.read = .waiting p) ∧ n ≤ chunkLineHeld s.read s.mBuffer := by
  let fresh : Memory := fun n => Vector.replicate n '?'
  let header : Str := "HTTP/1.1 200 \r\nTransfer-Encoding: chunked\r\n\r\n".toList
  let actions : List (ConnectionAction ℕ) := Client.startUp.map .client ++ [.arrive]
  obtain ⟨s₁, log, hr₁, hview⟩ := run_of_observed step (initial charMaxSize "h".toList [header])
    (actions.map fun a => (fresh, a)) (fun r => headerRead r.1)
    (show _ = some true by decide +kernel)
  have hempty : s₁.arriving = [] :=
    (of_decide_eq_true (Bool.and_eq_true_iff.mp hview).1).2.1
  generalize hline : List.replicate n 'a' = line
  have hlen : line.length = n := by rw [← hline, List.length_replicate]
  have hcr : '\r' ∉ line := by
    rw [← hline, List.mem_replicate]
    exact fun h => absurd h.2 (by decide)
  have hr₂ := run_arriving hr₁ (by decide) (if line = [] then [] else [line])
  rw [hempty, List.nil_append] at hr₂
  obtain ⟨as, s', hr₃, hholds⟩ := (holdsLine_of_headerRead hview _).run rfl hcr
    (by rw [hlen]; exact (Nat.zero_add n).symm ▸ hn) fresh
  rw [List.nil_append] at hholds
  obtain ⟨p, hread, -, hstate⟩ := hholds.read
  refine ⟨_, _, s', _, hr₂.append hr₃, ⟨p, hread⟩, ?_⟩
  rw [hread, chunkLineHeld, ← length_data, hholds.data, hlen]
  by_cases hne : line = []
  · rw [← hlen, hne]
    exact Nat.zero_le _
  · rw [if_pos (hstate hne)]

theorem chunk_line_unlimited_gigabyte :
    ∃ (pieces : List Str) (as : List (Memory × ConnectionAction ℕ)) (s : BufferedConnection ℕ)
      (log : List (Event ℕ)), Run step (initial charMaxSize "h".toList pieces) as s log ∧
        (∃ p, s.read = .waiting p) ∧ 1073741824 ≤ chunkLineHeld s.read s.mBuffer :=
  chunk_line_unlimited 1073741824 (by decide)

end RestClient.BufferedConnection
