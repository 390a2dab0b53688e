import RestClient.PutHeader

/-!
# Parsing the body piece by piece

Whatever part of a body of known length, of a body that ends with the stream or of a chunked
body is in the buffer, `put` takes from it what the grammar takes.
-/

namespace RestClient.ResponseParser
open Scanning Occurrence

/-! ### Data -/

theorem addBody_addBody (σ : Parsed) (a b : Str) :
    (σ.addBody a).addBody b = σ.addBody (a ++ b) := by
  simp only [Parsed.addBody, List.append_assoc, List.length_append, Nat.sub_sub]

/- The data in the buffer, and what is behind them. -/
theorem data_append (n : ℕ) (b later : Str) :
    b ++ later = b.take n ++ (b.drop n ++ later) := by
  rw [← List.append_assoc, List.take_append_drop]

theorem length_take_le (n : ℕ) (b : Str) : (b.take n).length ≤ n := by
  rw [List.length_take]
  exact Nat.min_le_left _ _

theorem length_drop_lt {n : ℕ} {b : Str} (hn : 0 < n) (hb : b ≠ []) :
    (b.drop n).length < b.length := by
  have hpos := List.length_pos_of_ne_nil hb
  rw [List.length_drop]
  omega

/-! ### The grammar of a body -/

theorem scanMessage_complete {σ : Parsed} (h : σ.state = .complete) : scanMessage σ = ret σ := by
  rw [scanMessage_body (by rw [h]; rfl), scanBody, h]

theorem scanMessage_inBody {σ : Parsed} (h : σ.state = .body) : scanMessage σ =
    andThen (exactly σ.len) fun data => ret { σ.addBody data with state := .complete } := by
  rw [scanMessage_body (by rw [h]; rfl), scanBody, h]

theorem scanMessage_bodyToEof {σ : Parsed} (h : σ.state = .bodyToEof) :
    scanMessage σ = scanToEof σ := by
  rw [scanMessage_body (by rw [h]; rfl), scanBody, h]

theorem scanMessage_chunkBody {σ : Parsed} (h : σ.state = .chunkBody) :
    scanMessage σ = scanChunks σ := by
  rw [scanMessage_body (by rw [h]; rfl), scanBody, h]

theorem scanMessage_chunkHeader {σ : Parsed} (h : σ.state = .chunkHeader) :
    scanMessage σ = scanChunks σ := by
  cases σ
  cases h
  rfl

theorem addBody_state (σ : Parsed) (data : Str) : (σ.addBody data).state = σ.state := rfl

theorem addBody_len (σ : Parsed) (data : Str) : (σ.addBody data).len = σ.len - data.length := rfl

/-! ### A body of known length, and one that ends with the stream -/

theorem putBody_settles {p : BasicParser} {b : Str} (hp : p.state = .body) (hcons : Consistent p b)
    (hb : b ≠ []) : Settles p b (putBody p b) := by
  rw [Consistent, hp] at hcons
  refine ⟨⟨fun later => ?_, ?_⟩, length_drop_lt hcons hb⟩
  · rw [scanMessage_inBody hp, data_append p.len b later, exactly_later (length_take_le _ _)]
    dsimp only
    split
    · rename_i hlen
      rw [addBody_len] at hlen
      rw [hlen, exactly_zero, List.append_nil, scanMessage_complete rfl]
    · rw [scanMessage_inBody (by rw [addBody_state, hp]), addBody_len]
      simp only [addBody_addBody]
  · dsimp only
    split
    · trivial
    · rename_i hlen
      rw [Consistent, addBody_state, hp]
      exact Nat.pos_of_ne_zero hlen

theorem unfinished_toEof {p : BasicParser} {b : Str} (hp : p.state = .bodyToEof) :
    Unfinished p b := by
  intro σ tail h
  rw [scanMessage_bodyToEof hp, scanToEof] at h
  split at h <;> cases h

theorem putBodyToEof_settles {p : BasicParser} {b : Str} (hp : p.state = .bodyToEof) (hb : b ≠ []) :
    Settles p b (putBodyToEof p b) := by
  unfold putBodyToEof
  split
  · exact fun later => unfinished_toEof hp
  · refine ⟨⟨fun later => ?_, ?_⟩, List.length_pos_of_ne_nil hb⟩
    · rename_i hlimit
      have hp' : (p.toParsed.toEof b).state = .bodyToEof := hp
      rw [scanMessage_bodyToEof hp]
      refine Eq.trans ?_ (congrFun (scanMessage_bodyToEof hp').symm later)
      unfold scanToEof Parsed.toEof
      rw [List.length_append]
      simp only [Nat.sub_lt_iff_lt_add' (Nat.le_of_not_lt hlimit)]
    · unfold Consistent Parsed.toEof
      dsimp only
      rw [hp]
      trivial

/-! ### The data of a chunk -/

theorem putChunkBody_settles {p : BasicParser} {b : Str} (hp : p.state = .chunkBody)
    (hcons : Consistent p b) (hb : b ≠ []) : Settles p b (putChunkBody p b) := by
  rw [Consistent, hp] at hcons
  obtain ⟨hlen, hskip, hcrlf, hfinal⟩ := hcons
  refine ⟨⟨fun later => ?_, ?_⟩, length_drop_lt hlen hb⟩
  · rw [scanMessage_chunkBody hp, data_append p.len b later]
    dsimp only
    have hdata : ∀ x, chunkData p.toParsed (b.take p.len ++ x) =
        andThen (exactly (p.len - (b.take p.len).length)) (fun data =>
          ret { p.addBody (b.take p.len ++ data) with state := .chunkHeader }) x := by
      intro x
      rw [chunkData, if_pos hp, exactly_later (length_take_le _ _)]
    split
    · rename_i hzero
      rw [addBody_len] at hzero
      rw [scanMessage_chunkHeader rfl]
      refine repeated_congr consumes_chunkStep ?_
      unfold chunkStep andThen
      rw [hdata, hzero, exactly_zero, List.append_nil]
      rfl
    · have hstate : (p.addBody (b.take p.len)).state = .chunkBody := by rw [addBody_state, hp]
      rw [scanMessage_chunkBody hstate]
      refine repeated_congr consumes_chunkStep ?_
      unfold chunkStep andThen
      rw [hdata, chunkData, if_pos hstate, addBody_len]
      simp only [addBody_addBody]
  · dsimp only
    split
    · refine Consistent.searched (.inr rfl) hfinal (.fresh ?_)
      exact hskip.trans (congrArg List.length (chunkEnd_expected hcrlf).symm)
    · rename_i hzero
      rw [Consistent, addBody_state, hp]
      exact ⟨Nat.pos_of_ne_zero hzero, hskip, hcrlf, hfinal⟩

end RestClient.ResponseParser
