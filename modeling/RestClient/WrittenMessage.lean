import Mathlib.Data.List.Infix
import RestClient.Serializer

/-!
# What the serializer writes

However the stream cuts the buffers, and whatever the limit of each of them, what has been
written is a first part of the header and the encoded body, and after enough calls it is all of
it. What is still to be written is a function of the state alone: in a state that has offered
buffers, what is left of them and then what is left from the state `consume` goes to.
-/

namespace RestClient
variable {W : Type}

/-- The writer gives the pieces `ps` in `n` calls of `get`, some of which may have to wait. -/
inductive Yields (B : BodyWriter W) : W → List Str → ℕ → Prop
  | none {w w' : W} : B.get w = (.none, w') → Yields B w [] 1
  | last {w w' : W} {data : Str} : B.get w = (.buffer data false, w') → Yields B w [data] 1
  | buffer {w w' : W} {data : Str} {ps : List Str} {n : ℕ} :
      B.get w = (.buffer data true, w') → Yields B w' ps n → Yields B w (data :: ps) (n + 1)
  | needMore {w w' : W} {ps : List Str} {n : ℕ} :
      B.get w = (.failed .needMore, w') → Yields B w' ps n → Yields B w ps (n + 1)

/-- The pieces that are written. Without `split` a body that has to wait at the first call is
given up: the message ends with its header, or behind it with the last chunk. -/
def Served (B : BodyWriter W) (split : Bool) (w : W) (ps : List Str) (n : ℕ) : Prop :=
  if split = false ∧ (B.get w).1 = .failed .needMore then ps = [] else Yields B w ps n

theorem Yields.pos {B : BodyWriter W} {w : W} {ps : List Str} {n : ℕ} (h : Yields B w ps n) :
    0 < n := by
  cases h <;> omega

theorem encode_nil : encode false [] = [] := rfl

theorem encode_cons (data : Str) (ps : List Str) :
    encode false (data :: ps) = data ++ encode false ps ∧
      encode true (data :: ps) = chunk data ++ encode true ps := by
  constructor
  · rfl
  · exact List.append_assoc ..

theorem encode_last (data : Str) :
    encode false [data] = data ∧ encode true [data] = chunk data ++ finalChunk := by
  constructor
  · exact List.append_nil _
  · exact congrArg (· ++ finalChunk) (List.append_nil _)

namespace Serializer

/-! ### What is left to write -/

/- Nothing has been offered yet. -/
def Fresh (B : BodyWriter W) (z : Serializer W) (chunked : Bool) (left : Str) (k : ℕ) : Prop :=
  ∃ w ps n, B.init z.wr = (none, w) ∧ Served B z.split w ps n ∧
    left = z.header ++ encode chunked ps ∧ k = n + 1

/- The pieces that have not been asked for. -/
def Unread (B : BodyWriter W) (z : Serializer W) (chunked : Bool) (left : Str) (k : ℕ) : Prop :=
  ∃ ps, Yields B z.wr ps k ∧ left = encode chunked ps

/-- What is left to write from a state without buffers; at most `k` calls write nothing. -/
def Idle (B : BodyWriter W) (z : Serializer W) (left : Str) (k : ℕ) : Prop :=
  match z.s with
  | .construct => Fresh B z z.chunked left k
  | .init => Fresh B z false left k
  | .initC => Fresh B z true left k
  | .body | .body1 => Unread B z false left k
  | .bodyC | .bodyC1 => Unread B z true left k
  | .finalC => left = finalChunk
  | .complete => left = []
  | _ => False

/- The states that offer what is left of the buffers. -/
def visiting : SerializerState → Bool
  | .headerOnly | .header | .body2 | .headerOnlyC | .headerC | .bodyC2 | .finalC1 | .bodyFinalC
  | .allC => true
  | _ => false

def Offering (B : BodyWriter W) (z : Serializer W) (left : Str) (k : ℕ) : Prop :=
  visiting z.s = true ∧ ∃ tail, left = z.v ++ tail ∧ Idle B z.consumed tail k

/-- What is left to write between two calls. -/
def Remains (B : BodyWriter W) (z : Serializer W) (left : Str) (k : ℕ) : Prop :=
  Idle B z left k ∨ z.v ≠ [] ∧ Offering B z left k

theorem isDone_iff {z : Serializer W} : z.isDone = true ↔ z.s = .complete := beq_iff_eq

theorem Remains.of_done {B : BodyWriter W} {z : Serializer W} {left : Str} {k : ℕ}
    (h : Remains B z left k) (hz : z.isDone = true) : left = [] := by
  have hs := isDone_iff.mp hz
  obtain h | ⟨-, hvisiting, -⟩ := h
  · rwa [Idle, hs] at h
  · rw [hs] at hvisiting
    cases hvisiting

theorem finalChunk_ne_nil : finalChunk ≠ [] := by decide

/- Until the message is complete there is something to write or to ask for. -/
theorem Remains.pos {B : BodyWriter W} {z : Serializer W} {left : Str} {k : ℕ}
    (h : Remains B z left k) (hz : ¬ z.isDone = true) : 0 < left.length + k := by
  rw [isDone_iff] at hz
  obtain h | ⟨hv, -, tail, rfl, -⟩ := h
  · unfold Idle at h
    cases hs : z.s <;> rw [hs] at h hz
    case construct | init | initC =>
      obtain ⟨w, ps, n, -, -, -, rfl⟩ := h
      exact Nat.add_pos_right _ (Nat.succ_pos n)
    case body | body1 | bodyC | bodyC1 =>
      obtain ⟨ps, hps, -⟩ := h
      exact Nat.add_pos_right _ hps.pos
    case finalC =>
      subst h
      exact Nat.add_pos_left (List.length_pos_of_ne_nil finalChunk_ne_nil) k
    case complete => exact absurd rfl hz
    all_goals exact h.elim
  · have hpos := List.length_pos_of_ne_nil hv
    rw [List.length_append]
    omega

/-! ### `next` -/

/- What a call of `next` leads to: it offers buffers, or has asked the writer for nothing. -/
def Follows (B : BodyWriter W) (z : Serializer W) (left : Str) (k : ℕ)
    (r : Visit × Serializer W) : Prop :=
  r.2.limit = z.limit ∧
    match r.1 with
    | .visited data => data = r.2.v.take r.2.limit ∧
        ∃ k', Offering B r.2 left k' ∧ (k' < k ∨ k' = k ∧ r.2.v ≠ [])
    | _ => ∃ k', k' < k ∧ Idle B r.2 left k'

theorem follows_visit {B : BodyWriter W} {z z' : Serializer W} {left t : Str} {k k' : ℕ}
    (hlimit : z'.limit = z.limit) (hv : visiting z'.s = true) (hleft : left = z'.v ++ t)
    (ht : Idle B z'.consumed t k') (hk : k' < k ∨ k' = k ∧ z'.v ≠ []) :
    Follows B z left k z'.visit :=
  ⟨hlimit, rfl, k', ⟨hv, t, hleft, ht⟩, hk⟩

/- What the writer says when it is asked together with the header. -/
theorem served_cases {B : BodyWriter W} {w : W} {ps : List Str} {n : ℕ}
    (h : Served B false w ps n) :
    (ps = [] ∧ ∃ w', B.get w = (.failed .needMore, w') ∨ B.get w = (.none, w')) ∨
    (∃ data w', B.get w = (.buffer data false, w') ∧ ps = [data]) ∨
    ∃ data w' ps' n', B.get w = (.buffer data true, w') ∧ ps = data :: ps' ∧ n' < n ∧
      Yields B w' ps' n' := by
  unfold Served at h
  split at h
  · rename_i hwait
    exact .inl ⟨h, (B.get w).2, .inl (Prod.ext hwait.2 rfl)⟩
  · rename_i hwait
    cases h with
    | none hget => exact .inl ⟨rfl, _, .inr hget⟩
    | last hget => exact .inr (.inl ⟨_, _, hget, rfl⟩)
    | buffer hget hps => exact .inr (.inr ⟨_, _, _, _, hget, rfl, Nat.lt_succ_self _, hps⟩)
    | needMore hget =>
      rw [hget] at hwait
      exact absurd ⟨rfl, rfl⟩ hwait

/- The first piece goes with the header. -/
theorem nextInit_follows {B : BodyWriter W} {z : Serializer W} {left : Str} {k : ℕ}
    (h : Fresh B z false left k) : Follows B z left k (z.nextInit B) := by
  obtain ⟨w, ps, n, hinit, hserved, rfl, rfl⟩ := h
  unfold nextInit
  simp only [hinit]
  by_cases hsplit : z.split = true
  · rw [if_pos hsplit]
    rw [hsplit, Served, if_neg (by simp)] at hserved
    refine follows_visit rfl rfl rfl ?_ (.inl (Nat.lt_succ_self n))
    rw [consumed]
    simp only [hsplit, if_true]
    exact ⟨ps, hserved, rfl⟩
  · rw [if_neg hsplit]
    rw [eq_false_of_ne_true hsplit] at hserved
    -- without a piece, or when it would have to wait, the header goes alone
    have hheader : ∀ w', Follows B z (z.header ++ []) (n + 1)
        (visit { z with wr := w', v := z.header, s := .headerOnly }) := by
      intro w'
      refine follows_visit rfl rfl rfl ?_ (.inl (Nat.lt_succ_self n))
      rw [consumed]
      simp only [if_neg hsplit]
      rfl
    obtain ⟨rfl, w', hget⟩ | ⟨data, w', hget, rfl⟩ | ⟨data, w', ps', n', hget, rfl, hlt, hps⟩ :=
      served_cases hserved
    · obtain hget | hget := hget <;> simp only [hget] <;> exact hheader w'
    · simp only [hget]
      refine follows_visit (t := []) rfl rfl ?_ ?_ (.inl (Nat.lt_succ_self n))
      · rw [(encode_last data).1, List.append_nil]
      · rfl
    · simp only [hget]
      refine follows_visit (t := encode false ps') rfl rfl ?_ ?_ (.inl (Nat.lt_succ_of_lt hlt))
      · rw [(encode_cons data ps').1, ← List.append_assoc]
      · exact ⟨ps', hps, rfl⟩

theorem nextInitC_follows {B : BodyWriter W} {z : Serializer W} {left : Str} {k : ℕ}
    (h : Fresh B z true left k) : Follows B z left k (z.nextInitC B) := by
  obtain ⟨w, ps, n, hinit, hserved, rfl, rfl⟩ := h
  unfold nextInitC
  simp only [hinit]
  by_cases hsplit : z.split = true
  · rw [if_pos hsplit]
    rw [hsplit, Served, if_neg (by simp)] at hserved
    refine follows_visit rfl rfl rfl ?_ (.inl (Nat.lt_succ_self n))
    rw [consumed]
    simp only [hsplit, if_true]
    exact ⟨ps, hserved, rfl⟩
  · rw [if_neg hsplit]
    rw [eq_false_of_ne_true hsplit] at hserved
    have hheader : ∀ w', Follows B z (z.header ++ finalChunk) (n + 1)
        (visit { z with wr := w', v := z.header, s := .headerOnlyC }) := by
      intro w'
      refine follows_visit rfl rfl rfl ?_ (.inl (Nat.lt_succ_self n))
      rw [consumed]
      simp only [if_neg hsplit]
      rfl
    obtain ⟨rfl, w', hget⟩ | ⟨data, w', hget, rfl⟩ | ⟨data, w', ps', n', hget, rfl, hlt, hps⟩ :=
      served_cases hserved
    · obtain hget | hget := hget <;> simp only [hget] <;> exact hheader w'
    · simp only [hget]
      refine follows_visit (t := []) rfl rfl ?_ ?_ (.inl (Nat.lt_succ_self n))
      · rw [(encode_last data).2, List.append_nil, List.append_assoc]
      · rfl
    · simp only [hget]
      refine follows_visit (t := encode true ps') rfl rfl ?_ ?_ (.inl (Nat.lt_succ_of_lt hlt))
      · rw [(encode_cons data ps').2, ← List.append_assoc]
      · exact ⟨ps', hps, rfl⟩

theorem nextBody_follows {B : BodyWriter W} {z : Serializer W} {left : Str} {k : ℕ}
    (hs : z.s = .body1) (h : Unread B z false left k) : Follows B z left k (z.nextBody B) := by
  obtain ⟨ps, hps, rfl⟩ := h
  unfold nextBody
  cases hps with
  | none hget =>
    simp only [hget]
    exact ⟨rfl, 0, Nat.one_pos, rfl⟩
  | last hget =>
    simp only [hget]
    refine follows_visit (t := []) rfl rfl ?_ ?_ (.inl Nat.one_pos)
    · rw [(encode_last _).1, List.append_nil]
    · rfl
  | buffer hget hps =>
    simp only [hget]
    exact follows_visit rfl rfl rfl ⟨_, hps, rfl⟩ (.inl (Nat.lt_succ_self _))
  | needMore hget hps =>
    simp only [hget]
    refine ⟨rfl, _, Nat.lt_succ_self _, ?_⟩
    simp only [Idle, hs]
    exact ⟨ps, hps, rfl⟩

theorem nextBodyC_follows {B : BodyWriter W} {z : Serializer W} {left : Str} {k : ℕ}
    (hs : z.s = .bodyC1) (h : Unread B z true left k) : Follows B z left k (z.nextBodyC B) := by
  obtain ⟨ps, hps, rfl⟩ := h
  unfold nextBodyC
  cases hps with
  | none hget =>
    simp only [hget]
    exact follows_visit rfl rfl (List.append_nil _).symm rfl (.inl Nat.one_pos)
  | last hget =>
    simp only [hget]
    refine follows_visit (t := []) rfl rfl ?_ ?_ (.inl Nat.one_pos)
    · rw [(encode_last _).2, List.append_nil]
    · rfl
  | buffer hget hps =>
    simp only [hget]
    exact follows_visit rfl rfl (encode_cons _ _).2 ⟨_, hps, rfl⟩ (.inl (Nat.lt_succ_self _))
  | needMore hget hps =>
    simp only [hget]
    refine ⟨rfl, _, Nat.lt_succ_self _, ?_⟩
    simp only [Idle, hs]
    exact ⟨ps, hps, rfl⟩

/-- A call of `next` offers a first part of what is left, or brings the end nearer. -/
theorem next_follows {B : BodyWriter W} {z : Serializer W} {left : Str} {k : ℕ}
    (h : Remains B z left k) (hz : ¬ z.isDone = true) : Follows B z left k (z.next B) := by
  rw [isDone_iff] at hz
  obtain h | ⟨hv, hvisiting, tail, rfl, htail⟩ := h
  · unfold Idle at h
    unfold next
    cases hs : z.s <;> rw [hs] at h hz <;> dsimp only at h ⊢
    case construct =>
      cases hc : z.chunked <;> rw [hc] at h
      · exact nextInit_follows h
      · exact nextInitC_follows h
    case init => exact nextInit_follows h
    case body => exact nextBody_follows (z := { z with s := .body1 }) rfl h
    case body1 => exact nextBody_follows hs h
    case initC => exact nextInitC_follows h
    case bodyC => exact nextBodyC_follows (z := { z with s := .bodyC1 }) rfl h
    case bodyC1 => exact nextBodyC_follows hs h
    case finalC =>
      subst h
      exact follows_visit rfl rfl (List.append_nil _).symm rfl (.inr ⟨rfl, finalChunk_ne_nil⟩)
    case complete => exact absurd rfl hz
  · have hnext : z.next B = z.visit := by
      unfold next
      cases hs : z.s <;> first | rfl | (rw [hs] at hvisiting; cases hvisiting)
    rw [hnext]
    exact follows_visit rfl hvisiting rfl htail (.inr ⟨rfl, hv⟩)

/-! ### `consume` -/

theorem consumed_keeps (z : Serializer W) : z.consumed.limit = z.limit := by
  unfold consumed
  split <;> rfl

theorem consume_limit (z : Serializer W) (n : ℕ) : (z.consume n).limit = z.limit := by
  unfold consume
  dsimp only
  split
  · exact consumed_keeps _
  · rfl

/- `consumed` looks at neither the buffers nor the limit. -/
theorem idle_consumed {B : BodyWriter W} (z : Serializer W) (v : Str) (limit : ℕ) (tail : Str)
    (k : ℕ) :
    Idle B { z with v := v, limit := limit }.consumed tail k ↔ Idle B z.consumed tail k := by
  obtain ⟨header, chunked, wr, limit', s, v', split, headerDone, more⟩ := z
  cases s <;> rfl

theorem consume_remains {B : BodyWriter W} {z : Serializer W} {left : Str} {k n : ℕ}
    (h : Offering B z left k) (hn : n ≤ z.v.length) :
    Remains B (z.consume n) (left.drop n) k := by
  obtain ⟨hvisiting, tail, rfl, htail⟩ := h
  rw [List.drop_append_of_le_length hn]
  unfold consume
  dsimp only
  split
  · rename_i hnil
    rw [hnil]
    exact .inl ((idle_consumed z _ z.limit tail k).mpr htail)
  · rename_i hne
    exact .inr ⟨hne, hvisiting, tail, rfl, (idle_consumed z _ z.limit tail k).mpr htail⟩

theorem setLimit_remains {B : BodyWriter W} {z : Serializer W} {left : Str} {k n : ℕ}
    (h : Remains B z left k) : Remains B (z.setLimit n) left k := by
  obtain h | ⟨hv, hvisiting, tail, hleft, htail⟩ := h
  · exact .inl h
  · exact .inr ⟨hv, hvisiting, tail, hleft, (idle_consumed z z.v _ tail k).mpr htail⟩

theorem setLimit_pos (z : Serializer W) (n : ℕ) : 0 < (z.setLimit n).limit := by
  unfold setLimit
  dsimp only
  split
  · assumption
  · decide

end Serializer

/-! ### The write of a message -/

namespace Writing
open Serializer

/- Part of the message has been written, and the rest can be. -/
structure Written (B : BodyWriter W) (message : Str) (bound : ℕ) (w : Writing W) : Prop where
  limit : 0 < w.sr.limit
  rest : ∃ left k, w.wire ++ left = message ∧ Remains B w.sr left k ∧
    (w.sr.isDone = true ∨ left.length + k ≤ bound)

theorem writeSome_done {B : BodyWriter W} {w : Writing W} (h : w.sr.isDone = true) (n : ℕ) :
    w.writeSome B n = w := if_pos h

/- A call writes a byte at least, or asks the writer once. -/
theorem written_writeSome {B : BodyWriter W} {message : Str} {bound : ℕ} {w : Writing W}
    (h : Written B message (bound + 1) w) (n : ℕ) :
    Written B message bound (w.writeSome B n) := by
  obtain ⟨hlimit, left, k, rfl, hrest, hbound⟩ := h
  by_cases hdone : w.sr.isDone = true
  · rw [writeSome_done hdone]
    exact ⟨hlimit, left, k, rfl, hrest, .inl hdone⟩
  have hle := hbound.resolve_left hdone
  unfold writeSome
  rw [if_neg hdone]
  obtain ⟨hkeep, hnext⟩ := next_follows hrest hdone
  split
  · rename_i data sr hr
    rw [hr] at hkeep hnext
    obtain ⟨hdata, k', ⟨hvisiting, t, rfl, ht⟩, hk⟩ := hnext
    dsimp only at hdata hvisiting ht hk hkeep hle ⊢
    -- the buffers are cut by the limit, and then by the stream
    have hlen : data.length = min sr.limit sr.v.length := by rw [hdata, List.length_take]
    have hcut : data.take (n + 1) = sr.v.take (min (n + 1) data.length) := by
      rw [hlen, hdata, List.take_take, List.take_eq_take_iff]
      omega
    have hfits : min (n + 1) data.length ≤ sr.v.length := by omega
    refine ⟨by rw [consume_limit, hkeep]; exact hlimit, _, k', ?_,
      consume_remains ⟨hvisiting, t, rfl, ht⟩ hfits, .inr ?_⟩
    · rw [hcut, List.append_assoc, List.drop_append_of_le_length hfits, ← List.append_assoc _ _ t,
        List.take_append_drop]
    · rw [List.length_append] at hle
      rw [List.length_drop, List.length_append]
      obtain hlt | ⟨rfl, hv⟩ := hk
      · omega
      · have hpos := List.length_pos_of_ne_nil hv
        omega
  · rename_i r sr hvisit hr
    rw [hr] at hkeep hnext
    obtain ⟨k', hlt, hidle⟩ : ∃ k', k' < k ∧ Idle B sr left k' := by
      cases r with
      | visited data => exact absurd rfl (hvisit data)
      | failed e => exact hnext
      | done => exact hnext
    exact ⟨hkeep ▸ hlimit, left, k', rfl, .inl hidle, .inr (by omega)⟩

/- The calls of `write_some_op` among the steps. -/
def writes (ops : List WriteStep) : ℕ :=
  ops.countP fun
    | .limit _ => false
    | .writeSome _ => true

theorem Written.mono {B : BodyWriter W} {message : Str} {bound bound' : ℕ} {w : Writing W}
    (h : Written B message bound w) (hle : bound ≤ bound') : Written B message bound' w := by
  obtain ⟨hlimit, left, k, hwire, hrest, hbound⟩ := h
  exact ⟨hlimit, left, k, hwire, hrest, hbound.imp_right fun hk => hk.trans hle⟩

theorem written_setLimit {B : BodyWriter W} {message : Str} {bound : ℕ} {w : Writing W}
    (h : Written B message bound w) (n : ℕ) : Written B message bound (w.step B (.limit n)) := by
  obtain ⟨-, left, k, hwire, hrest, hbound⟩ := h
  exact ⟨setLimit_pos w.sr n, left, k, hwire, setLimit_remains hrest, hbound⟩

/- Every call of a run uses up some of the bound. -/
theorem written_of_steps {B : BodyWriter W} {message : Str} {bound : ℕ} (ops : List WriteStep)
    {w : Writing W} (h : Written B message (bound + writes ops) w) :
    Written B message bound (ops.foldl (step B) w) := by
  induction ops generalizing w with
  | nil => exact h
  | cons op ops ih =>
    refine ih ?_
    cases op with
    | limit n => exact written_setLimit h n
    | writeSome n =>
      refine written_writeSome (h.mono (Nat.le_of_eq ?_)) n
      exact congrArg (bound + ·) (List.countP_cons_of_pos rfl)

theorem written_start {B : BodyWriter W} {wr w : W} {header : Str} {ps : List Str} {n : ℕ}
    (chunked : Bool) {split : Bool} (hinit : B.init wr = (none, w))
    (hbody : Served B split w ps n) :
    Written B (header ++ encode chunked ps) ((header ++ encode chunked ps).length + (n + 1))
      ⟨Serializer.start header chunked split wr, []⟩ where
  limit := by
    show 0 < noLimit
    decide
  rest := ⟨header ++ encode chunked ps, n + 1, rfl,
    .inl ⟨w, ps, n, hinit, hbody, rfl, rfl⟩, .inr (Nat.le_refl _)⟩

/- A run is where its calls have brought it. -/
theorem written_run {B : BodyWriter W} {wr w : W} {header : Str} {ps : List Str} {n : ℕ}
    (chunked : Bool) {split : Bool} (hinit : B.init wr = (none, w))
    (hbody : Served B split w ps n) (ops : List WriteStep) :
    Written B (header ++ encode chunked ps)
      ((header ++ encode chunked ps).length + (n + 1) - writes ops)
      (run B header chunked split wr ops) := by
  refine written_of_steps ops ((written_start chunked hinit hbody).mono ?_)
  omega

/- The wire holds a first part of the message, and all of it at the end. -/
theorem Written.outcome {B : BodyWriter W} {message : Str} {bound : ℕ} {w : Writing W}
    (h : Written B message bound w) : w.wire <+: message ∧
      (w.sr.isDone = true → w.wire = message) ∧ (bound = 0 → w.sr.isDone = true) := by
  obtain ⟨-, left, k, hwire, hrest, hbound⟩ := h
  refine ⟨⟨left, hwire⟩, fun hdone => ?_, fun hzero => ?_⟩
  · rw [hrest.of_done hdone, List.append_nil] at hwire
    exact hwire
  · refine hbound.elim id fun hle => ?_
    by_contra hdone
    have hpos := hrest.pos hdone
    omega

/-- Whatever the stream takes of each buffer, and whatever the limit is set to on the way, the
bytes on the wire are a first part of the message, they are all of it when the serializer is
done, and it is done after a call for each byte and each answer of the body's writer. -/
theorem message_written {B : BodyWriter W} {wr w : W} {header : Str} {ps : List Str} {n : ℕ}
    (chunked : Bool) {split : Bool} (hinit : B.init wr = (none, w))
    (hbody : Served B split w ps n) (ops : List WriteStep) :
    (run B header chunked split wr ops).wire <+: header ++ encode chunked ps ∧
      ((run B header chunked split wr ops).sr.isDone = true →
        (run B header chunked split wr ops).wire = header ++ encode chunked ps) ∧
      ((header ++ encode chunked ps).length + n < writes ops →
        (run B header chunked split wr ops).sr.isDone = true) := by
  have h : Written B (header ++ encode chunked ps) _ (run B header chunked split wr ops) :=
    written_run chunked hinit hbody ops
  obtain ⟨hpart, hall, hend⟩ := h.outcome
  exact ⟨hpart, hall, fun hmany => hend (by omega)⟩

/- A chunked body that waits before its first piece, with the header written alone. -/
theorem message_written_waits :
    let B : BodyWriter (List Got) :=
      ⟨fun gs => (none, gs), fun gs => (gs.headD .none, gs.tail)⟩
    let script := [.failed .needMore, .buffer "hi".toList true]
    let w := run B "HTTP/1.1 200 OK\r\n\r\n".toList true true script
      (.limit 4 :: List.replicate 40 (.writeSome 2))
    w.sr.isDone = true ∧ w.wire = "HTTP/1.1 200 OK\r\n\r\n2\r\nhi\r\n0\r\n\r\n".toList := by
  intro B script w
  have hbody : Served B true script ["hi".toList] 3 :=
    .needMore rfl (.buffer rfl (.none rfl))
  have hmany : ("HTTP/1.1 200 OK\r\n\r\n".toList ++ encode true ["hi".toList]).length + 3 <
      writes (.limit 4 :: List.replicate 40 (.writeSome 2)) := by decide
  obtain ⟨-, hwire, hdone⟩ := message_written true rfl hbody
    (.limit 4 :: List.replicate 40 (.writeSome 2))
  exact ⟨hdone hmany, hwire (hdone hmany)⟩

/- `Handler::Write`: a request has no body, and its header is all that is written. -/
theorem request_written (r : HttpRequest) (ops : List WriteStep) :
    (run emptyBody r.serialize false false () ops).wire <+: r.serialize ∧
      ((run emptyBody r.serialize false false () ops).sr.isDone = true →
        (run emptyBody r.serialize false false () ops).wire = r.serialize) ∧
      (r.serialize.length + 1 < writes ops →
        (run emptyBody r.serialize false false () ops).sr.isDone = true) := by
  have hbody : Served emptyBody false () [] 1 := Yields.none rfl
  have h : Written emptyBody (r.serialize ++ encode false []) _
      (run emptyBody r.serialize false false () ops) := written_run false rfl hbody ops
  rw [encode_nil, List.append_nil] at h
  obtain ⟨hpart, hall, hend⟩ := h.outcome
  exact ⟨hpart, hall, fun hmany => hend (by omega)⟩

end Writing

end RestClient
