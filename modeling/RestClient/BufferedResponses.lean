import RestClient.BufferBound

/-!
# Responses over the flat buffer

A connection that carries whole responses and then at most a part of one. The maximum of the
buffer is above what the connection carries, so the socket is given room whenever it has bytes,
and the read loop comes to the last response.
-/

namespace RestClient.BufferedConnection
open Machine ResponseParser FlatBuffer
variable {HandlerType : Type} {v : CutStream} {limit : ℕ} {mHost : Str} {pieces : List Str}

/- The buffer holds no more than has come. -/
theorem held_of_run [Inhabited HandlerType] {as : List (Memory × ConnectionAction HandlerType)}
    {s : BufferedConnection HandlerType} {log : List (Event HandlerType)}
    (h : Run step (initial limit mHost pieces) as s log) :
    s.mBuffer.size + s.arriving.flatten.length ≤ pieces.flatten.length := by
  induction h with
  | nil => exact Nat.le_of_eq (Nat.zero_add _)
  | snoc hr hs ih =>
    obtain ⟨r, -, htracks, -, -⟩ := tracks_of_run hr
    exact (htracks.step hs).kept.trans ih

/- What is left may be cut into any chunks. -/
theorem follows_of_run [Inhabited HandlerType] (hpieces : pieces.flatten = v.stream.bytes)
    {as : List (Memory × ConnectionAction HandlerType)} {s : BufferedConnection HandlerType}
    {log : List (Event HandlerType)} (h : Run step (initial limit mHost pieces) as s log) :
    ∃ r, Tracks limit s log r ∧ ∀ later, later.flatten = s.arriving.flatten →
      (s.arriving = [] → later = []) →
        ∃ w rest, Connection.Follows v ⟨s.client, r, later⟩ log w rest := by
  obtain ⟨r, chunks, htracks, hbytes, hrun⟩ := tracks_of_run h
  refine ⟨r, htracks, fun later hlater hnil => ?_⟩
  obtain ⟨w, rest, -, hfollows⟩ := Connection.follows_of_run (v := v)
    (by rw [List.flatten_append, hlater, ← hbytes, hpieces]) (hrun later hnil)
  exact ⟨w, rest, hfollows⟩

theorem responses_left {s : Connection HandlerType} {log : List (Event HandlerType)}
    {w : Wire HandlerType Char} {rest : List (HttpResponse × Str)}
    (h : Connection.Follows v s log w rest) :
    (Client.responsesRead log).length + rest.length = v.messages.length := by
  have hlen := congrArg List.length h.reads.processed
  rw [Connection.responses_stream, List.length_map, List.length_append, List.length_map] at hlen
  exact hlen.symm

/-! ### The read loop -/

/- What the read loop has still to do: the responses, the callback, and the calls of the
socket, each of which takes a byte or an empty piece. -/
def work (v : CutStream) (s : BufferedConnection HandlerType) (log : List (Event HandlerType)) :
    ℕ :=
  2 * (v.messages.length - (Client.responsesRead log).length) + s.client.inCallback.toNat +
    (s.arriving.flatten.length + s.arriving.length)

theorem unread_less (chunk : Str) {n : ℕ} (rest : List Str) (hn : 0 < n) :
    (unread chunk n rest).flatten.length + (unread chunk n rest).length <
      (chunk :: rest).flatten.length + (chunk :: rest).length := by
  unfold unread
  split
  · rw [List.flatten_cons, List.length_append, List.length_cons]
    omega
  · rename_i hne
    have hlen := List.length_pos_iff.mpr hne
    simp only [List.flatten_cons, List.length_append, List.length_cons, List.length_drop] at hlen ⊢
    omega

theorem read_step [Inhabited HandlerType] (hpieces : pieces.flatten = v.stream.bytes)
    {as : List (Memory × ConnectionAction HandlerType)} {s s' : BufferedConnection HandlerType}
    {log es : List (Event HandlerType)} {fresh : Memory} {a : ConnectionAction HandlerType}
    (h : Run step (initial limit mHost pieces) as s log) (hl : Wire.Live s.client)
    (ha : a ∈ Connection.readSteps) (hs : step s (fresh, a) = some (s', es)) :
    Wire.Live s'.client ∧ work v s' (log ++ es) < work v s log := by
  obtain ⟨r, htracks, hfollows⟩ := follows_of_run hpieces h
  obtain ⟨⟨r', taken, -, hflat, hnil, hstep⟩, -, -⟩ := htracks.step hs
  obtain ⟨w, rest, hw⟩ := hfollows (taken ++ s'.arriving)
    (by rw [List.flatten_append, hflat]) fun hempty => by
      obtain ⟨htaken, hleft⟩ := hnil hempty
      rw [htaken, hleft]
      rfl
  obtain ⟨a', hwhole, ha'⟩ := Connection.whole_readSteps ha
  have hmatched := hw.step (hstep s'.arriving id)
  rw [hwhole] at hmatched
  obtain ⟨w', rest', hws, hw', htaken⟩ := hmatched
  have hleft := responses_left hw
  have hleft' := responses_left hw'
  refine ⟨?_, ?_⟩
  · have hlive := Wire.live_step ha' (hw.client ▸ hl) hws
    rwa [hw'.client] at hlive
  unfold work
  cases move_of_step hs with
  | arrive p chunk arriving b room hr harriving hc hroom hb =>
    have hpos : 0 < room := by
      cases htracks.read with
      | idle b hr' => cases hr.symm.trans hr'
      | busy r hm =>
        rw [hr] at hm
        cases hm with
        | waiting _ _ _ hpos => exact hroom ▸ hpos
    have hless := unread_less chunk arriving hpos
    cases hwhole
    rw [List.append_nil, harriving]
    dsimp only
    omega
  | client a c es hread hcs =>
    have heq : a = .callbackReturn := by simpa [Connection.readSteps] using ha
    subst heq
    cases hwhole
    cases Client.move_of_step hcs with
    | callbackReturn hrunning hi =>
      simp only [Wire.taken, hi, Bool.toNat_true, Bool.toNat_false] at *
      omega
  | readComplete m c es hr hcs =>
    have hle := Bool.toNat_le c.inCallback
    cases hwhole
    simp only [Wire.taken] at *
    omega
  | endOfStream | readFails => simp [Connection.readSteps] at ha

/- When the read loop can do nothing over the buffer it can do nothing over the bytes. -/
theorem stuck {s : BufferedConnection HandlerType} {log : List (Event HandlerType)}
    {r : ReadState} (h : Tracks limit s log r) (hroom : s.mBuffer.size < limit) (fresh : Memory)
    (hs : ∀ a ∈ Connection.readSteps, step s (fresh, a) = none) :
    ∀ a ∈ Connection.readSteps, Connection.step ⟨s.client, r, s.arriving⟩ a = none := by
  have hcall : ∀ {ec : ErrorCode} {response : HttpResponse},
      complete fresh s ec response = none → Client.step s.client (.onRead ec response) = none :=
    fun hnone => Option.map_eq_none_iff.mp hnone
  intro a ha
  have hnone := hs a ha
  simp only [Connection.readSteps, List.mem_cons, List.not_mem_nil, or_false] at ha
  rcases ha with rfl | rfl | rfl
  · cases h.read with
    | idle b hr => rfl
    | busy r hm =>
      cases hread : s.read <;> rw [hread] at hm <;> cases hm
      case overflow p hfull => exact absurd hroom (Nat.not_lt.mpr hfull)
      case delivered | failed => rfl
      case waiting p hready hskip hpos =>
        cases hw : s.arriving with
        | nil => rfl
        | cons chunk rest =>
          by_cases hc : s.client.canHandle
          · have hfits : (chunk.take (s.mBuffer.last_ - s.mBuffer.out_)).length ≤
                s.mBuffer.last_ - s.mBuffer.out_ := by
              rw [List.length_take]
              exact Nat.min_le_left _ _
            obtain ⟨b, hb, -⟩ := write_spec hfits
            simp [step, hread, hw, hc, hb] at hnone
          · simp only [Connection.step, if_neg hc]
  · cases h.read with
    | idle b hr => rfl
    | busy r hm =>
      cases hread : s.read <;> rw [hread] at hm <;> cases hm
      case delivered m =>
        simp only [step, hread] at hnone
        simp only [Connection.step, hcall hnone, Option.map_none]
      all_goals rfl
  · simp only [step] at hnone
    simp only [Connection.step, h.read.threw]
    split at hnone
    · rename_i hpermits
      rw [if_pos hpermits, Option.map_eq_none_iff.mp hnone]
      rfl
    · rename_i hthrew
      rw [if_neg hthrew]

theorem can_settle [Inhabited HandlerType] (hpieces : pieces.flatten = v.stream.bytes)
    (hlimit : v.stream.bytes.length < limit) (fresh : Memory)
    {as : List (Memory × ConnectionAction HandlerType)} {s : BufferedConnection HandlerType}
    {log : List (Event HandlerType)} (h : Run step (initial limit mHost pieces) as s log)
    (hl : Wire.Live s.client) :
    ∃ bs s' log', Run step s bs s' log' ∧ (∀ b ∈ bs, b.1 = fresh ∧ b.2 ∈ Connection.readSteps) ∧
      Client.responsesRead (log ++ log') = v.messages.map fun m => m.1.passed := by
  generalize hn : work v s log = n
  induction n using Nat.strong_induction_on generalizing s as log with
  | _ n ih =>
    by_cases hstuck : ∀ a ∈ Connection.readSteps, step s (fresh, a) = none
    · obtain ⟨r, htracks, hfollows⟩ := follows_of_run hpieces h
      obtain ⟨w, rest, hw⟩ := hfollows s.arriving rfl id
      have hheld := held_of_run h
      rw [hpieces] at hheld
      cases hw.stuck hl (stuck htracks (by omega) fresh hstuck)
      refine ⟨[], s, [], .nil, List.forall_mem_nil _, ?_⟩
      rw [List.append_nil]
      exact hw.all
    · push Not at hstuck
      obtain ⟨a, ha, hsome⟩ := hstuck
      obtain ⟨⟨s₁, es⟩, hs⟩ := Option.ne_none_iff_exists'.mp hsome
      obtain ⟨hl₁, hless⟩ := read_step hpieces h hl ha hs
      obtain ⟨bs, s', log', hr, hbs, hall⟩ := ih _ (hn ▸ hless) (h.snoc hs) hl₁ rfl
      refine ⟨(fresh, a) :: bs, s', es ++ log', (Run.single hs).append hr, ?_, ?_⟩
      · exact List.forall_mem_cons.mpr ⟨⟨rfl, ha⟩, hbs⟩
      · rw [← List.append_assoc]
        exact hall

end RestClient.BufferedConnection
