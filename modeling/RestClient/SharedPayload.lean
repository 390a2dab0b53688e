import RestClient.SharedPositions

/-!
# Payloads of the shared ring

`get` frees its slot by the compare-exchange on `mReadPos` and copies the slot
only afterwards. A producer that goes once round the ring in between overwrites
the entry. The payloads are intact in every run in which no `add` assigns the
slot of a position that is claimed and still to be copied.
-/

namespace RestClient.Shared
open Machine
variable {ι Callback : Type} {n : RingSize}

/-- The pair stored by the `add` that published position `p`. -/
def storedAt (log : List (Event ι Callback)) (p : ℕ) : Option (RequestType Callback) :=
  ((published log)[p]?).map Prod.snd

/-- Every `get` returned the pair that was stored at the position it claimed. -/
def PayloadsIntact (log : List (Event ι Callback)) : Prop :=
  ∀ c p v, .returned c p v ∈ log → storedAt log p.toNat = some v

/-- When `add` assigns the slot of position `w`, the `get` that claimed position
`w - mSize`, if any, has copied its entry. -/
def CopiedBeforeReuse (s : State ι Callback n) : Action ι Callback → Prop
  | .producer => ∀ v w, s.producer = .room v w →
      ∀ c r, s.consumer c = .claimed r → r + n.mSize ≠ w
  | _ => True

/- Claimed positions still to be copied are at most one lap behind; while the
producer has assigned the slot of the next position, less than one lap. -/
structure PayloadInv (s : State ι Callback n) (log : List (Event ι Callback)) : Prop where
  live : ∀ p, (claims log).length ≤ p → p < (published log).length →
    storedAt log p = some (s.buffer.mRequests (RingWindow.slotOf n.mSize.toNat p))
  claimed : ∀ c r, s.consumer c = .claimed r →
    storedAt log r.toNat = some (s.buffer.mRequests (RingWindow.slotOf n.mSize.toNat r.toNat)) ∧
      (published log).length ≤ r.toNat + n.mSize.toNat
  assigned : ∀ v w, s.producer = .assigned v w →
    s.buffer.mRequests (RingWindow.slotOf n.mSize.toNat (published log).length) = v ∧
      ∀ c r, s.consumer c = .claimed r → (published log).length < r.toNat + n.mSize.toNat
  intact : PayloadsIntact log

theorem initial_payloadInv [Inhabited Callback] :
    PayloadInv (initial : State ι Callback n) [] where
  live p _ hp := absurd hp (Nat.not_lt_zero p)
  claimed c r hc := by simp [initial] at hc
  assigned v w hp := by simp [initial] at hp
  intact c p v hm := absurd hm List.not_mem_nil

theorem storedAt_append {log es : List (Event ι Callback)} {p : ℕ} {v : RequestType Callback}
    (h : storedAt log p = some v) : storedAt (log ++ es) p = some v := by
  obtain ⟨e, he, hv⟩ := Option.map_eq_some_iff.mp h
  have hlt := (List.getElem?_eq_some_iff.mp he).1
  simp only [storedAt, published_append, List.getElem?_append_left hlt, he, hv, Option.map_some]

theorem intact_append {log es : List (Event ι Callback)} (h : PayloadsIntact log)
    (hes : ∀ c p v, .returned c p v ∈ es → storedAt (log ++ es) p.toNat = some v) :
    PayloadsIntact (log ++ es) := by
  intro c p v hm
  rcases List.mem_append.mp hm with hm | hm
  · exact storedAt_append (h c p v hm)
  · exact hes c p v hm

/- A step that leaves slots and counters alone, claims nothing anew and does not
reach `assigned`. -/
theorem payload_quiet {s s' : State ι Callback n} {log es : List (Event ι Callback)}
    (h : PayloadInv s log) (hb : s'.buffer.mRequests = s.buffer.mRequests)
    (hc : claims es = []) (hp : published es = [])
    (hcons : ∀ c r, s'.consumer c = .claimed r → s.consumer c = .claimed r)
    (hprod : ∀ v w, s'.producer = .assigned v w → s.producer = .assigned v w)
    (hret : ∀ c p v, .returned c p v ∈ es → storedAt log p.toNat = some v) :
    PayloadInv s' (log ++ es) := by
  have hclaims : claims (log ++ es) = claims log := by simp [hc]
  have hpub : published (log ++ es) = published log := by simp [hp]
  refine ⟨?_, ?_, ?_, intact_append h.intact fun c p v hm => storedAt_append (hret c p v hm)⟩
  · intro p hr hw
    rw [hclaims] at hr
    rw [hpub] at hw
    rw [hb]
    exact storedAt_append (h.live p hr hw)
  · intro c r hcr
    obtain ⟨hstored, hlap⟩ := h.claimed c r (hcons c r hcr)
    rw [hb, hpub]
    exact ⟨storedAt_append hstored, hlap⟩
  · intro v w hpc
    obtain ⟨hslot, hlap⟩ := h.assigned v w (hprod v w hpc)
    rw [hb, hpub]
    exact ⟨hslot, fun c r hcr => hlap c r (hcons c r hcr)⟩

theorem claimed_of_update [DecidableEq ι] {f : ι → GetPc} {c d : ι} {pc : GetPc} {r : UInt64}
    (hpc : ∀ q, pc ≠ .claimed q) (h : Function.update f c pc d = .claimed r) :
    f d = .claimed r := by
  by_cases hd : d = c
  · subst hd
    rw [Function.update_self] at h
    exact absurd h (hpc r)
  · rwa [Function.update_of_ne hd] at h

/- `r + mSize ≠ w` on counters is the same on positions less than a lap apart. -/
theorem lap_lt {r w : UInt64} {W : ℕ} (hw : w.toNat = W % 2 ^ 64)
    (hlap : W ≤ r.toNat + n.mSize.toNat) (hne : r + n.mSize ≠ w) :
    W < r.toNat + n.mSize.toNat := by
  refine Nat.lt_of_le_of_ne hlap fun heq => hne ?_
  refine UInt64.toNat_inj.mp ?_
  rw [UInt64.toNat_add, hw, heq]

theorem payload_assign {s : State ι Callback n} {log : List (Event ι Callback)}
    {v : RequestType Callback} {w : UInt64} (hi : Inv s log) (h : PayloadInv s log)
    (hp : s.producer = .room v w)
    (hok : ∀ c r, s.consumer c = .claimed r → r + n.mSize ≠ w) :
    PayloadInv { s with
      buffer.mRequests := Function.update s.buffer.mRequests (n.slot w) v
      producer := .assigned v w } log := by
  have hadd := hi.producer
  rw [hp] at hadd
  obtain ⟨rfl, hfull⟩ := hadd
  have hne := mt hi.positions.full_iff.mpr hfull
  obtain ⟨hwrite, hread, hle, hroom⟩ := hi.positions
  have hbehind : ∀ c r, s.consumer c = .claimed r →
      (published log).length < r.toNat + n.mSize.toNat :=
    fun c r hc => lap_lt hwrite (h.claimed c r hc).2 (hok c r hc)
  have hkeep : ∀ p, p < (published log).length → (published log).length < p + n.mSize.toNat →
      Function.update s.buffer.mRequests (n.slot s.buffer.mWritePos) v
          (RingWindow.slotOf n.mSize.toNat p) =
        s.buffer.mRequests (RingWindow.slotOf n.mSize.toNat p) := by
    intro p hp hlap
    rw [n.slot_eq hwrite]
    exact Function.update_of_ne (RingWindow.slotOf_ne hp hlap) _ _
  refine ⟨?_, ?_, ?_, h.intact⟩
  · intro p hr hw
    dsimp only
    rw [hkeep p hw (by omega)]
    exact h.live p hr hw
  · intro c r hc
    obtain ⟨hstored, hlap⟩ := h.claimed c r hc
    have hget := hi.consumer c
    rw [hc] at hget
    have hlt : r.toNat < (claims log).length := hget
    dsimp only
    rw [hkeep r.toNat (by omega) (hbehind c r hc)]
    exact ⟨hstored, hlap⟩
  · intro v' w' hpc
    cases hpc
    refine ⟨?_, hbehind⟩
    rw [n.slot_eq hwrite]
    exact Function.update_self _ _ _

theorem payload_publish {s : State ι Callback n} {log : List (Event ι Callback)}
    {v : RequestType Callback} {w : UInt64} (h : PayloadInv s log)
    (hp : s.producer = .assigned v w) :
    PayloadInv { s with
      buffer.mWritePos := s.buffer.mWritePos + 1
      producer := .idle } (log ++ [.published s.buffer.mWritePos v]) := by
  obtain ⟨hslot, hlap⟩ := h.assigned v w hp
  obtain ⟨hclaims, hpub⟩ := views_published log s.buffer.mWritePos v
  have hlen : (published (log ++ [(.published s.buffer.mWritePos v : Event ι Callback)])).length =
      (published log).length + 1 := by
    rw [hpub, List.length_append, List.length_singleton]
  refine ⟨?_, ?_, ?_, ?_⟩
  · intro q hr hw
    rw [hclaims] at hr
    rw [hlen] at hw
    rcases Nat.lt_succ_iff_lt_or_eq.mp hw with hlt | rfl
    · exact storedAt_append (h.live q hr hlt)
    · dsimp only
      rw [hslot, storedAt, hpub, List.getElem?_concat_length, Option.map_some]
  · intro c r hc
    have hbehind := hlap c r hc
    rw [hlen]
    exact ⟨storedAt_append (h.claimed c r hc).1, hbehind⟩
  · intro v' w' hpc
    cases hpc
  · exact intact_append h.intact (by simp)

theorem payload_claim [DecidableEq ι] {s : State ι Callback n} {log : List (Event ι Callback)}
    {c : ι} {r : UInt64} (hi : Inv s log) (h : PayloadInv s log)
    (hc : s.consumer c = .nonempty r) (he : s.buffer.mReadPos = r) :
    PayloadInv { s with
      buffer.mReadPos := r + 1
      consumer := Function.update s.consumer c (.claimed r) } (log ++ [.claimed c r]) := by
  subst he
  have hget := hi.consumer c
  rw [hc] at hget
  obtain ⟨-, hrw, -⟩ := hget
  have hfull := hi.positions.full_iff
  obtain ⟨hwrite, hread, hle, hroom⟩ := hi.positions
  obtain ⟨hclaims, hpub⟩ := views_claimed log c s.buffer.mReadPos
  have hcases : ∀ d q, Function.update s.consumer c (.claimed s.buffer.mReadPos) d = .claimed q →
      q = s.buffer.mReadPos ∨ s.consumer d = .claimed q := by
    intro d q hd
    by_cases hdc : d = c
    · subst hdc
      rw [Function.update_self] at hd
      exact Or.inl (GetPc.claimed.inj hd).symm
    · rw [Function.update_of_ne hdc] at hd
      exact Or.inr hd
  refine ⟨?_, ?_, ?_, intact_append h.intact (by simp)⟩
  · intro q hr hw
    rw [hclaims, List.length_append] at hr
    rw [hpub] at hw
    exact storedAt_append (h.live q (by omega) hw)
  · intro d q hd
    rw [hpub]
    rcases hcases d q hd with rfl | hold
    · exact ⟨storedAt_append (h.live _ hread.ge hrw), by omega⟩
    · exact ⟨storedAt_append (h.claimed d q hold).1, (h.claimed d q hold).2⟩
  · intro v w hpc
    obtain ⟨hslot, hlap⟩ := h.assigned v w hpc
    rw [hpub]
    refine ⟨hslot, fun d q hd => ?_⟩
    rcases hcases d q hd with rfl | hold
    · have hadd := hi.producer
      rw [show s.producer = .assigned v w from hpc] at hadd
      have hne := mt hfull.mpr hadd.2
      omega
    · exact hlap d q hold

theorem payload_step [DecidableEq ι] {s s' : State ι Callback n} {log es : List (Event ι Callback)}
    {a : Action ι Callback} (hi : Inv s log) (h : PayloadInv s log) (hok : CopiedBeforeReuse s a)
    (hs : step s a = some (s', es)) : PayloadInv s' (log ++ es) := by
  cases move_of_step hs with
  | callAdd v hp =>
    exact payload_quiet h rfl rfl rfl (fun _ _ hc => hc) (by simp) (by simp)
  | loadWrite v hp =>
    exact payload_quiet h rfl rfl rfl (fun _ _ hc => hc) (by simp) (by simp)
  | testFull v w hp hf =>
    exact payload_quiet h rfl rfl rfl (fun _ _ hc => hc) (by simp) (by simp)
  | testRoom v w hp hf =>
    exact payload_quiet h rfl rfl rfl (fun _ _ hc => hc) (by simp) (by simp)
  | refuse w hp =>
    exact payload_quiet h rfl rfl rfl (fun _ _ hc => hc) (by simp) (by simp)
  | assign v w hp =>
    rw [List.append_nil]
    exact payload_assign hi h hp (hok v w hp)
  | publish v w hp => exact payload_publish h hp
  | claim c r hc he => exact payload_claim hi h hc he
  | copy c r hc =>
    refine payload_quiet h rfl rfl rfl (fun _ _ => claimed_of_update (by simp))
      (fun _ _ hp => hp) ?_
    intro d p v hm
    cases List.mem_singleton.mp hm
    have hsmall := r.toNat_lt
    rw [n.slot_eq (Nat.mod_eq_of_lt hsmall).symm]
    exact (h.claimed c r hc).1
  | _ =>
    exact payload_quiet h rfl rfl rfl (fun _ _ => claimed_of_update (by simp))
      (fun _ _ hp => hp) (by simp)

/-- In every run in which each slot is copied before it is reused, every `get`
returns the pair stored at the position it claimed. -/
theorem shared_payloads_intact [DecidableEq ι] [Inhabited Callback] (n : RingSize)
    (as : List (Action ι Callback))
    (h : EachStep step (initial : State ι Callback n) as fun s _ a => CopiedBeforeReuse s a) :
    Always step (initial : State ι Callback n) as fun _ log => PayloadsIntact log := by
  have hall : Always step (initial : State ι Callback n) as PayloadInv :=
    always_of_eachStep Inv PayloadInv (fun s _ a => CopiedBeforeReuse s a)
      (always_of_run (fun _ _ _ => inv_of_run) as) initial_payloadInv
      (fun _ _ _ _ _ hi _ => payload_step hi) h
  intro pre s log hpre hr
  exact (hall pre s log hpre hr).intact

/-- Where the condition fails the payload is lost, unless the two pairs are equal. -/
theorem reuse_breaks [DecidableEq ι] {s : State ι Callback n} {log : List (Event ι Callback)}
    {v : RequestType Callback} {w r : UInt64} {c : ι} (hp : s.producer = .room v w)
    (hc : s.consumer c = .claimed r) (hlap : r + n.mSize = w)
    (hv : storedAt log r.toNat ≠ some v) :
    ∃ s' es, Run step s [.producer, .consumer c] s' es ∧ ¬ PayloadsIntact (log ++ es) := by
  have hslot : n.slot w = n.slot r := by
    have hr := r.toNat_lt
    have hw : w.toNat = (r.toNat + n.mSize.toNat) % 2 ^ 64 := by rw [← hlap, UInt64.toNat_add]
    rw [n.slot_eq hw, RingWindow.slotOf_add_self, n.slot_eq (Nat.mod_eq_of_lt hr).symm]
  have hexec : exec step s [.producer, .consumer c] = some ({ s with
      buffer.mRequests := Function.update s.buffer.mRequests (n.slot r) v
      producer := .assigned v w
      consumer := Function.update s.consumer c .idle }, [.returned c r v]) := by
    simp only [exec, step, hp, addStep, hc, getStep, hslot, Option.map_some, Function.update_self,
      List.nil_append, List.append_nil]
  refine ⟨_, _, run_of_exec hexec, ?_⟩
  intro hintact
  have hstored := hintact c r v (by simp)
  refine hv ?_
  simpa [storedAt, published] using hstored

/- The condition, decided for two consumers. -/
def copiedBeforeReuse (s : State Bool ℕ n) : Action Bool ℕ → Bool
  | .producer =>
    match s.producer with
    | .room _ w => [false, true].all fun c =>
        match s.consumer c with
        | .claimed r => r + n.mSize != w
        | _ => true
    | _ => true
  | _ => true

theorem copiedBeforeReuse_sound {s : State Bool ℕ n} {a : Action Bool ℕ}
    (h : copiedBeforeReuse s a = true) : CopiedBeforeReuse s a := by
  cases a with
  | producer =>
    intro v w hp c r hc
    simp only [copiedBeforeReuse, hp, List.all_cons, List.all_nil, Bool.and_true,
      Bool.and_eq_true] at h
    cases c with
    | false => simpa [hc] using h.1
    | true => simpa [hc] using h.2
  | _ => trivial

/- Two slots, one entry copied before its slot is used again. -/
theorem shared_payloads_intact_two_slots :
    ∃ log : List (Event Bool ℕ), .returned true 1 (default, 8) ∈ log ∧ PayloadsIntact log := by
  let as : List (Action Bool ℕ) :=
    [.callAdd (default, 7), .producer, .producer, .producer, .producer,
      .callAdd (default, 8), .producer, .producer, .producer, .producer,
      .callGet false, .consumer false, .consumer false, .consumer false, .consumer false,
      .callAdd (default, 9), .producer, .producer, .callGet true, .consumer true,
      .consumer true, .consumer true, .consumer true, .consumer false, .producer, .producer,
      .consumer true]
  obtain ⟨s, log, hr, rfl⟩ := run_of_observed step (initial : State Bool ℕ .smallest) as
    (fun r => r.2)
    (show _ = some [.published 0 (default, 7), .published 1 (default, 8), .claimed false 0,
      .claimed true 1, .returned false 0 (default, 7), .published 2 (default, 9),
      .returned true 1 (default, 8)] by decide +kernel)
  have hcheck : checkEach step copiedBeforeReuse (initial : State Bool ℕ .smallest) as = true := by
    decide +kernel
  have hok : EachStep step (initial : State Bool ℕ .smallest) as
      fun s _ a => CopiedBeforeReuse s a :=
    fun pre a s log hp hr hs =>
      copiedBeforeReuse_sound (eachStep_of_check hcheck pre a s log hp hr hs)
  exact ⟨_, by simp, (shared_payloads_intact _ as hok).last hr⟩

/-- Two slots, both full. The consumer claims position 0, the producer publishes
position 2 in the same slot, and the consumer then copies that pair. -/
theorem shared_payload_overwritten :
    ∃ (s : State Unit ℕ .smallest) (log : List (Event Unit ℕ)),
      Run step initial
        [.callAdd (default, 7), .producer, .producer, .producer, .producer,
          .callAdd (default, 8), .producer, .producer, .producer, .producer,
          .callGet (), .consumer (), .consumer (), .consumer (), .consumer (),
          .callAdd (default, 9), .producer, .producer, .producer, .producer, .consumer ()] s log ∧
      .returned () 0 (default, 9) ∈ log ∧ storedAt log 0 = some (default, 7) ∧
      ¬ PayloadsIntact log := by
  obtain ⟨s, log, hr, rfl⟩ := run_of_observed step (initial : State Unit ℕ .smallest)
    [.callAdd (default, 7), .producer, .producer, .producer, .producer,
      .callAdd (default, 8), .producer, .producer, .producer, .producer,
      .callGet (), .consumer (), .consumer (), .consumer (), .consumer (),
      .callAdd (default, 9), .producer, .producer, .producer, .producer, .consumer ()]
    (fun r => r.2)
    (show _ = some [.published 0 (default, 7), .published 1 (default, 8), .claimed () 0,
      .published 2 (default, 9), .returned () 0 (default, 9)] by decide +kernel)
  refine ⟨s, _, hr, by simp, rfl, fun hintact => ?_⟩
  have hsame := hintact () 0 (default, 9) (by simp)
  simp [storedAt, published] at hsame

end RestClient.Shared
