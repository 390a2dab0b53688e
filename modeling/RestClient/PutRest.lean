import RestClient.PutLoop

/-!
# What `put` leaves in the buffer

The bytes that have not been consumed are the last ones. While the header is not complete they
are fewer than its limit; of a body nothing is left; a line of a chunk has no limit.
-/

namespace RestClient.ResponseParser
open Scanning

/- `skip` stays within the window of the header. -/
def SkipFits (p : BasicParser) : Prop := inHeader p.state = true → p.skip + 4 ≤ headerLimit

/- What is left is the end of `b`, and short where `put` needs more of the header. -/
def Put.Leaves (b : Str) : Put → Prop
  | .next p rest => rest <:+ b ∧ SkipFits p
  | .needMore p rest => rest <:+ b ∧ SkipFits p ∧
      (rest.length < headerLimit ∨ p.state = .chunkHeader)
  | .failed _ => True

theorem Put.Leaves.trans {b b' : Str} {r : Put} (hb : b' <:+ b) (h : r.Leaves b') :
    r.Leaves b := by
  cases r with
  | next p rest => exact ⟨h.1.trans hb, h.2⟩
  | needMore p rest => exact ⟨h.1.trans hb, h.2⟩
  | failed e => trivial

theorem skipFits_of_body {p : BasicParser} (h : inHeader p.state = false) : SkipFits p :=
  fun hin => absurd (hin.symm.trans h) (by decide)

theorem skipFits_zero {p : BasicParser} (h : p.skip = 0) : SkipFits p := by
  intro _
  rw [h]
  decide

/-! ### The header -/

theorem maybeNeedMore_some {skip s : ℕ} {b : Str} (hskip : skip + 4 ≤ headerLimit)
    (h : maybeNeedMore skip b = .ok (some s)) : b.length < headerLimit ∧ s + 4 ≤ headerLimit := by
  unfold maybeNeedMore at h
  dsimp only at h
  split at h
  · cases h
  split at h
  · rename_i hfew
    cases h
    exact ⟨by omega, hskip⟩
  split at h
  · cases h
  split at h
  · cases h
  · rename_i hmin
    cases h
    exact ⟨by omega, by omega⟩

theorem window_suffix {b rest : Str} (h : rest <:+ b.take headerLimit) :
    rest ++ b.drop headerLimit <:+ b := by
  obtain ⟨used, hused⟩ := h
  refine ⟨used, ?_⟩
  rw [← List.append_assoc, hused, List.take_append_drop]

theorem headerNeedsMore_leaves {p : BasicParser} {b rest : Str} (hskip : p.skip = 0)
    (hrest : rest <:+ b) : (headerNeedsMore p b.length rest).Leaves b := by
  have hlen := hrest.length_le
  unfold headerNeedsMore
  split
  · trivial
  · rename_i hlimit
    refine ⟨hrest, fun _ => ?_, .inl (by omega)⟩
    show (if 3 ≤ rest.length then rest.length - 3 else p.skip) + 4 ≤ headerLimit
    rw [hskip]
    unfold headerLimit at *
    split <;> omega

theorem putFields_leaves {p : BasicParser} (h : p.skip + 4 ≤ headerLimit) (b : Str) :
    (putFields p b).Leaves b := by
  obtain ⟨hended, hwaiting⟩ :=
    advance_suffix incremental_fieldStep p.toParsed (b.take headerLimit)
  unfold putFields
  split
  · trivial
  · rename_i s hmore
    obtain ⟨hshort, hs⟩ := maybeNeedMore_some h hmore
    exact ⟨List.suffix_refl _, fun _ => hs, .inl hshort⟩
  · split
    · trivial
    · rename_i hadv
      exact headerNeedsMore_leaves rfl (window_suffix (hwaiting _ _ hadv))
    · rename_i hadv
      split
      · trivial
      · exact ⟨window_suffix (hended _ _ hadv), skipFits_zero rfl⟩

theorem putStartLine_leaves {p : BasicParser} (h : p.skip + 4 ≤ headerLimit) (b : Str) :
    (putStartLine p b).Leaves b := by
  unfold putStartLine
  split
  · trivial
  · rename_i s hmore
    obtain ⟨hshort, hs⟩ := maybeNeedMore_some h hmore
    exact ⟨List.suffix_refl _, fun _ => hs, .inl hshort⟩
  · split
    · trivial
    · exact headerNeedsMore_leaves rfl (List.suffix_refl _)
    · rename_i σ rest hline
      have hrest := window_suffix ((incremental_parseStartLine p.toParsed).suffix _ _ _ hline)
      split
      · exact ⟨List.nil_suffix, skipFits_zero rfl, .inl (by decide)⟩
      · exact (putFields_leaves (p := { p with toParsed := σ, skip := 0 })
          (show 0 + 4 ≤ headerLimit by decide) _).trans hrest

/-! ### The body -/

theorem putFinalChunk_leaves {p : BasicParser} (hp : p.state = .chunkHeader) (b ext eol : Str) :
    (putFinalChunk p b ext eol).Leaves b := by
  have hbody : ∀ q : BasicParser, q.state = .chunkHeader → SkipFits q := by
    intro q hq
    exact skipFits_of_body (by rw [hq]; rfl)
  unfold putFinalChunk
  split
  · exact ⟨List.suffix_refl _, hbody _ hp, .inr hp⟩
  · split
    · trivial
    · exact ⟨List.suffix_refl _, hbody _ hp, .inr hp⟩
    · dsimp only
      split
      · trivial
      · split
        · trivial
        · rename_i hadv
          have hσ := ((advance_kept _ _).2 _ _ hadv).state.trans hp
          exact ⟨List.suffix_refl _, hbody _ hσ, .inr hσ⟩
        · exact ⟨List.drop_suffix _ _, skipFits_of_body rfl⟩

theorem putChunkHeader_leaves {p : BasicParser} (hp : p.state = .chunkHeader) (b : Str) :
    (putChunkHeader p b).Leaves b := by
  have hbody : ∀ q : BasicParser, q.state = .chunkHeader → SkipFits q := by
    intro q hq
    exact skipFits_of_body (by rw [hq]; rfl)
  unfold putChunkHeader
  by_cases hf : p.finalChunk = true
  · rw [if_pos hf]
    dsimp only
    split
    · exact putFinalChunk_leaves hp _ _ _
    · trivial
  rw [if_neg hf]
  by_cases hfew : b.length < p.skip + 2
  · rw [if_pos hfew]
    exact ⟨List.suffix_refl _, hbody _ hp, .inr hp⟩
  rw [if_neg hfew]
  cases if p.expectCRLF then parseCrlf b else some b with
  | none => trivial
  | some digits =>
    dsimp only
    split
    · trivial
    · exact ⟨List.suffix_refl _, hbody _ hp, .inr hp⟩
    · rename_i heol
      have hrest := (incremental_findEol.suffix _ _ _ heol).trans (List.drop_suffix p.skip b)
      split
      · trivial
      · split
        · exact putFinalChunk_leaves (p := { p with skip := _, finalChunk := true }) hp _ _ _
        · split
          · trivial
          · split
            · trivial
            · exact ⟨List.suffix_refl _, hbody _ hp, .inr hp⟩
            · split
              · trivial
              · exact ⟨hrest, skipFits_of_body rfl⟩

theorem putBody_leaves {p : BasicParser} (hp : p.state = .body) (b : Str) :
    (putBody p b).Leaves b := by
  refine ⟨List.drop_suffix _ _, skipFits_of_body ?_⟩
  dsimp only
  split
  · rfl
  · rw [addBody_state, hp]
    rfl

theorem putChunkBody_leaves {p : BasicParser} (hp : p.state = .chunkBody) (b : Str) :
    (putChunkBody p b).Leaves b := by
  refine ⟨List.drop_suffix _ _, skipFits_of_body ?_⟩
  dsimp only
  split
  · rfl
  · rw [addBody_state, hp]
    rfl

theorem putBodyToEof_leaves {p : BasicParser} (hp : p.state = .bodyToEof) (b : Str) :
    (putBodyToEof p b).Leaves b := by
  unfold putBodyToEof
  split
  · trivial
  · refine ⟨List.nil_suffix, skipFits_of_body ?_⟩
    show inHeader p.state = false
    rw [hp]
    rfl

/-! ### `put` -/

theorem dispatch_leaves {p : BasicParser} (h : SkipFits p) (b : Str) : (dispatch p b).Leaves b := by
  unfold dispatch
  cases hp : p.state <;> dsimp only
  case nothingYet =>
    have hskip : p.skip + 4 ≤ headerLimit := h (by rw [hp]; rfl)
    split
    · rename_i hb
      exact ⟨List.suffix_refl _, h, .inl (by rw [hb]; decide)⟩
    · exact putStartLine_leaves (p := { p with state := .startLine }) hskip b
  case startLine => exact putStartLine_leaves (h (by rw [hp]; rfl)) b
  case fields => exact putFields_leaves (h (by rw [hp]; rfl)) b
  case body0 | body => exact putBody_leaves (p := { p with state := .body }) rfl b
  case bodyToEof0 | bodyToEof => exact putBodyToEof_leaves (p := { p with state := .bodyToEof }) rfl b
  case chunkHeader0 | chunkHeader =>
    exact putChunkHeader_leaves (p := { p with state := .chunkHeader }) rfl b
  case chunkBody => exact putChunkBody_leaves hp b
  case complete => exact ⟨List.suffix_refl _, h⟩

theorem putLoop_leaves {n : ℕ} {p : BasicParser} {b : Str} (h : SkipFits p) :
    (putLoop n p b).Leaves b := by
  induction n generalizing p b with
  | zero => exact ⟨List.suffix_refl _, h⟩
  | succ n ih =>
    have hturn := dispatch_leaves h b
    unfold putLoop
    cases hr : dispatch p b with
    | failed e => trivial
    | needMore p' rest =>
      rw [hr] at hturn
      exact hturn
    | next p' rest =>
      rw [hr] at hturn
      dsimp only
      split
      · exact (ih hturn.2).trans hturn.1
      · exact hturn

/- The read that waits has consumed all but the end of what it was given. -/
def Waits (b : Str) (p' : BasicParser) (b' : Str) : Prop :=
  b' <:+ b ∧ SkipFits p' ∧ (b'.length < headerLimit ∨ p'.state = .chunkHeader)

theorem readBuffer_leaves {p : BasicParser} {b : Str} (h : Ready p b) (hskip : SkipFits p) :
    (∀ m rest, readBuffer p b = .delivered m rest → rest <:+ b) ∧
      ∀ p' b', readBuffer p b = .waiting p' b' → Waits b p' b' := by
  unfold readBuffer
  split
  · rename_i hb
    refine ⟨nofun, fun p' b' hr => ?_⟩
    cases hr
    exact ⟨List.suffix_refl _, hskip, .inl (by rw [hb]; decide)⟩
  · rename_i hb
    have hleaves : (put p b).Leaves b := putLoop_leaves hskip
    have hsound : PutSound p b (put p b) := putLoop_sound (Nat.lt_succ_self b.length) h hb
    split
    · rename_i p₁ rest hput
      rw [hput] at hleaves hsound
      split
      · refine ⟨fun m rest' hr => ?_, nofun⟩
        cases hr
        exact hleaves.1
      · rename_i hc
        refine ⟨nofun, fun p' b' hr => ?_⟩
        cases hr
        exact ⟨hleaves.1, hleaves.2, .inl (by rw [hsound.2.2 hc]; decide)⟩
    · rename_i p₁ rest hput
      rw [hput] at hleaves
      refine ⟨nofun, fun p' b' hr => ?_⟩
      cases hr
      exact hleaves
    · exact ⟨nofun, nofun⟩

end RestClient.ResponseParser
