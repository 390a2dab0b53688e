import RestClient.SharedBuffer
import Mathlib.Data.List.Nodup

/-!
# Positions of the shared ring

The loads that `add` and `get` act on are stale. What survives: the producer's
copy of `mWritePos` is exact, because only the producer increments it; a
consumer's copy of `mReadPos` is a lower bound, and a compare-exchange that
succeeds turns it into the exact value.
-/

namespace RestClient.Shared
open Machine
variable {ι Callback : Type} {n : RingSize}

/-- Positions claimed so far, in the order of the successful compare-exchanges. -/
def claims (log : List (Event ι Callback)) : List UInt64 :=
  log.filterMap fun
    | .claimed _ p => some p
    | _ => none

/-- Successful `add`s: the position each increment left and the pair it published. -/
def published (log : List (Event ι Callback)) : List (UInt64 × RequestType Callback) :=
  log.filterMap fun
    | .published p v => some (p, v)
    | _ => none

@[simp] theorem claims_append (log es : List (Event ι Callback)) :
    claims (log ++ es) = claims log ++ claims es := List.filterMap_append ..

@[simp] theorem published_append (log es : List (Event ι Callback)) :
    published (log ++ es) = published log ++ published es := List.filterMap_append ..

/- What a claim and what a publication add to the two views. -/
theorem views_claimed (log : List (Event ι Callback)) (c : ι) (p : UInt64) :
    claims (log ++ [.claimed c p]) = claims log ++ [p] ∧
      published (log ++ [.claimed c p]) = published log := by
  rw [claims_append, published_append]
  exact ⟨rfl, List.append_nil _⟩

theorem views_published (log : List (Event ι Callback)) (p : UInt64) (v : RequestType Callback) :
    claims (log ++ [.published p v]) = claims log ∧
      published (log ++ [.published p v]) = published log ++ [(p, v)] := by
  rw [claims_append, published_append]
  exact ⟨List.append_nil _, rfl⟩

def AddOk (b : RequestBuffer Callback n) : AddPc Callback → Prop
  | .loaded _ w => w = b.mWritePos
  | .room _ w => w = b.mWritePos ∧ ¬ b.full
  | .assigned _ w => w = b.mWritePos ∧ ¬ b.full
  | _ => True

/- `r` claims and `w` publications have happened. -/
def GetOk (r w : ℕ) : GetPc → Prop
  | .loaded p => p.toNat ≤ r
  | .nonempty p => p.toNat ≤ r ∧ p.toNat < w ∧ p.toNat + 1 < 2 ^ 64
  | .claimed p => p.toNat < r
  | _ => True

theorem GetOk.mono {r w r' w' : ℕ} (hr : r ≤ r') (hw : w ≤ w') {pc : GetPc}
    (h : GetOk r w pc) : GetOk r' w' pc := by
  cases pc with
  | loaded p => exact Nat.le_trans h hr
  | nonempty p => exact ⟨Nat.le_trans h.1 hr, Nat.lt_of_lt_of_le h.2.1 hw, h.2.2⟩
  | claimed p => exact Nat.lt_of_lt_of_le h hr
  | _ => trivial

structure Inv (s : State ι Callback n) (log : List (Event ι Callback)) : Prop where
  positions : s.buffer.Positions (claims log).length (published log).length
  claimed : (claims log).map UInt64.toNat = List.range (claims log).length
  numbered : (published log).map (fun e => e.1.toNat) =
    (List.range (published log).length).map (· % 2 ^ 64)
  producer : AddOk s.buffer s.producer
  consumer : ∀ c, GetOk (claims log).length (published log).length (s.consumer c)

theorem initial_inv [Inhabited Callback] : Inv (initial : State ι Callback n) [] where
  positions := RequestBuffer.positions_initial
  claimed := rfl
  numbered := rfl
  producer := trivial
  consumer _ := trivial

/- A step that moves no counter, emits no claim and publishes nothing. -/
theorem inv_quiet {s s' : State ι Callback n} {log es : List (Event ι Callback)} (h : Inv s log)
    (hw : s'.buffer.mWritePos = s.buffer.mWritePos) (hr : s'.buffer.mReadPos = s.buffer.mReadPos)
    (hc : claims es = []) (hp : published es = []) (hadd : AddOk s'.buffer s'.producer)
    (hget : ∀ c, GetOk (claims log).length (published log).length (s'.consumer c)) :
    Inv s' (log ++ es) := by
  have hlen : claims (log ++ es) = claims log ∧ published (log ++ es) = published log := by
    simp [hc, hp]
  rw [← hlen.1, ← hlen.2] at hget
  refine ⟨?_, ?_, ?_, hadd, hget⟩
  · rw [hlen.1, hlen.2]
    obtain ⟨h1, h2, h3, h4⟩ := h.positions
    exact ⟨by rw [hw]; exact h1, by rw [hr]; exact h2, h3, h4⟩
  · rw [hlen.1]
    exact h.claimed
  · rw [hlen.2]
    exact h.numbered

theorem getOk_update [DecidableEq ι] {s : State ι Callback n} {r w : ℕ} {c : ι} {pc : GetPc}
    (h : ∀ d, GetOk r w (s.consumer d)) (hpc : GetOk r w pc) :
    ∀ d, GetOk r w (Function.update s.consumer c pc d) := by
  intro d
  by_cases hd : d = c
  · subst hd
    rw [Function.update_self]
    exact hpc
  · rw [Function.update_of_ne hd]
    exact h d

/- The compare-exchange succeeds on the current value of `mReadPos`. -/
theorem inv_claim [DecidableEq ι] {s : State ι Callback n} {log : List (Event ι Callback)}
    {c : ι} {r : UInt64} (h : Inv s log) (hc : s.consumer c = .nonempty r)
    (he : s.buffer.mReadPos = r) :
    Inv { s with
      buffer.mReadPos := r + 1
      consumer := Function.update s.consumer c (.claimed r) } (log ++ [.claimed c r]) := by
  obtain ⟨hwrite, hread, hle, hroom⟩ := h.positions
  have hget := h.consumer c
  rw [hc] at hget
  obtain ⟨-, hrw, hsmall⟩ := hget
  have hr : r.toNat = (claims log).length := he ▸ hread
  have hnext : (r + 1).toNat = (claims log).length + 1 := by
    rw [UInt64.toNat_add, UInt64.toNat_one, Nat.mod_eq_of_lt hsmall, hr]
  obtain ⟨hclaims, hpub⟩ := views_claimed log c r
  have hlen : (claims (log ++ [(.claimed c r : Event ι Callback)])).length =
      (claims log).length + 1 := by
    rw [hclaims, List.length_append, List.length_singleton]
  refine ⟨?_, ?_, ?_, ?_, ?_⟩
  · rw [hlen, hpub]
    exact ⟨hwrite, hnext, by omega, by omega⟩
  · rw [hlen, hclaims, List.map_append, h.claimed, List.range_succ]
    simp [hr]
  · rw [hpub]
    exact h.numbered
  · have hp := h.producer
    have hfull := h.positions.full_iff
    have hpos' : RequestBuffer.Positions { s.buffer with mReadPos := r + 1 }
        ((claims log).length + 1) (published log).length := ⟨hwrite, hnext, by omega, by omega⟩
    cases hpc : s.producer with
    | room v w =>
      rw [hpc] at hp
      exact ⟨hp.1, by rw [hpos'.full_iff]; omega⟩
    | assigned v w =>
      rw [hpc] at hp
      exact ⟨hp.1, by rw [hpos'.full_iff]; omega⟩
    | loaded v w =>
      rw [hpc] at hp
      exact hp
    | _ => trivial
  · rw [hlen, hpub]
    exact getOk_update (fun d => (h.consumer d).mono (Nat.le_succ _) (Nat.le_refl _))
      (show r.toNat < (claims log).length + 1 by omega)

/- The increment publishes the position the producer loaded. -/
theorem inv_publish {s : State ι Callback n} {log : List (Event ι Callback)}
    {v : RequestType Callback} {w : UInt64} (h : Inv s log) (hp : s.producer = .assigned v w) :
    Inv { s with
      buffer.mWritePos := s.buffer.mWritePos + 1
      producer := .idle } (log ++ [.published s.buffer.mWritePos v]) := by
  have hadd := h.producer
  rw [hp] at hadd
  obtain ⟨-, hfull⟩ := hadd
  have hne := mt h.positions.full_iff.mpr hfull
  obtain ⟨hwrite, hread, hle, hroom⟩ := h.positions
  obtain ⟨hclaims, hpub⟩ := views_published log s.buffer.mWritePos v
  have hlen : (published (log ++ [(.published s.buffer.mWritePos v : Event ι Callback)])).length =
      (published log).length + 1 := by
    rw [hpub, List.length_append, List.length_singleton]
  refine ⟨?_, ?_, ?_, trivial, ?_⟩
  · rw [hlen, hclaims]
    refine ⟨?_, hread, by omega, by omega⟩
    show (s.buffer.mWritePos + 1).toNat = ((published log).length + 1) % 2 ^ 64
    rw [UInt64.toNat_add, hwrite, UInt64.toNat_one, Nat.mod_add_mod]
  · rw [hclaims]
    exact h.claimed
  · rw [hlen, hpub, List.map_append, h.numbered, List.range_succ, List.map_append]
    simp [hwrite]
  · rw [hlen, hclaims]
    exact fun c => (h.consumer c).mono (Nat.le_refl _) (Nat.le_succ _)

theorem inv_step [DecidableEq ι] {s s' : State ι Callback n} {log es : List (Event ι Callback)}
    {a : Action ι Callback} (h : Inv s log) (hs : step s a = some (s', es)) :
    Inv s' (log ++ es) := by
  have hread := h.positions.read
  cases move_of_step hs with
  | callAdd v hp => exact inv_quiet h rfl rfl rfl rfl trivial h.consumer
  | loadWrite v hp => exact inv_quiet h rfl rfl rfl rfl rfl h.consumer
  | testFull v w hp hf => exact inv_quiet h rfl rfl rfl rfl trivial h.consumer
  | testRoom v w hp hf =>
    have hadd := h.producer
    rw [hp] at hadd
    subst hadd
    exact inv_quiet h rfl rfl rfl rfl ⟨rfl, hf⟩ h.consumer
  | refuse w hp => exact inv_quiet h rfl rfl rfl rfl trivial h.consumer
  | assign v w hp =>
    have hadd := h.producer
    rw [hp] at hadd
    exact inv_quiet h rfl rfl rfl rfl hadd h.consumer
  | publish v w hp => exact inv_publish h hp
  | loadRead c hc =>
    exact inv_quiet h rfl rfl rfl rfl h.producer (getOk_update h.consumer hread.le)
  | testNonempty c r hc he =>
    have hget := h.consumer c
    rw [hc] at hget
    have hlt : r.toNat < (published log).length % 2 ^ 64 := by
      rw [← h.positions.write]
      exact UInt64.lt_iff_toNat_lt.mp he
    have hmod := Nat.mod_le (published log).length (2 ^ 64)
    exact inv_quiet h rfl rfl rfl rfl h.producer
      (getOk_update h.consumer ⟨hget, by omega, by omega⟩)
  | claim c r hc he => exact inv_claim h hc he
  | _ => exact inv_quiet h rfl rfl rfl rfl h.producer (getOk_update h.consumer trivial)

theorem inv_of_run [DecidableEq ι] [Inhabited Callback] {as : List (Action ι Callback)}
    {s : State ι Callback n} {log : List (Event ι Callback)} (h : Run step initial as s log) :
    Inv s log := by
  refine Run.invariant Inv initial_inv ?_ h
  intro s log a s' es hinv hs
  exact inv_step hinv hs

/-! ### Every claim is backed by an earlier publication -/

def Backed (log : List (Event ι Callback)) : Prop :=
  ∀ before c p after, log = before ++ .claimed c p :: after →
    p ∈ (published before).map Prod.fst

/- Appending one event only adds the split at the end. -/
theorem backed_snoc {log : List (Event ι Callback)} {e : Event ι Callback} (h : Backed log)
    (he : ∀ c p, e = .claimed c p → p ∈ (published log).map Prod.fst) : Backed (log ++ [e]) := by
  intro before c p after hsplit
  rcases List.eq_nil_or_concat after with rfl | ⟨init, last, rfl⟩
  · obtain ⟨rfl, hlast⟩ := List.append_inj' hsplit rfl
    exact he c p (List.cons.inj hlast).1
  · rw [List.concat_eq_append, ← List.cons_append, ← List.append_assoc] at hsplit
    obtain ⟨hlog, -⟩ := List.append_inj' hsplit rfl
    exact h before c p init hlog

/- While a claim is possible the position in `mReadPos` is published. -/
theorem published_of_lt {s : State ι Callback n} {log : List (Event ι Callback)} (h : Inv s log)
    (hlt : (claims log).length < (published log).length) :
    s.buffer.mReadPos ∈ (published log).map Prod.fst := by
  have hread := h.positions.read
  have hsmall := s.buffer.mReadPos.toNat_lt
  have hmem : s.buffer.mReadPos.toNat ∈ (published log).map (fun e => e.1.toNat) := by
    rw [h.numbered]
    exact List.mem_map.mpr ⟨_, List.mem_range.mpr hlt, by omega⟩
  obtain ⟨e, he, hpos⟩ := List.mem_map.mp hmem
  exact List.mem_map.mpr ⟨e, he, UInt64.toNat_inj.mp hpos⟩

theorem backed_step [DecidableEq ι] {s s' : State ι Callback n} {log es : List (Event ι Callback)}
    {a : Action ι Callback} (h : Inv s log) (hb : Backed log) (hs : step s a = some (s', es)) :
    Backed (log ++ es) := by
  cases move_of_step hs with
  | claim c r hc he =>
    refine backed_snoc hb ?_
    intro d p heq
    cases heq
    have hget := h.consumer c
    rw [hc] at hget
    have hread := h.positions.read
    subst he
    exact published_of_lt h (hread ▸ hget.2.1)
  | refuse w hp => exact backed_snoc hb (by simp)
  | publish v w hp => exact backed_snoc hb (by simp)
  | testEmpty c r hc he => exact backed_snoc hb (by simp)
  | exchangeFail c r hc he => exact backed_snoc hb (by simp)
  | copy c r hc => exact backed_snoc hb (by simp)
  | _ =>
    rw [List.append_nil]
    exact hb

theorem backed_of_run [DecidableEq ι] [Inhabited Callback] {as : List (Action ι Callback)}
    {s : State ι Callback n} {log : List (Event ι Callback)} (h : Run step initial as s log) :
    Backed log := by
  have hstart : Backed ([] : List (Event ι Callback)) := by
    intro before c p after hsplit
    simp at hsplit
  refine (Run.invariant (fun s log => Inv s log ∧ Backed log) ⟨initial_inv, hstart⟩ ?_ h).2
  intro s log a s' es hinv hs
  exact ⟨inv_step hinv.1 hs, backed_step hinv.1 hinv.2 hs⟩

/-- The positions are safe under every interleaving of one producer and any
number of consumers with fewer than `2 ^ 64` successful `add`s. -/
theorem shared_positions_safe [DecidableEq ι] [Inhabited Callback] (n : RingSize)
    (as : List (Action ι Callback)) (s : State ι Callback n) (log : List (Event ι Callback))
    (h : Run step initial as s log) (hw : (published log).length < 2 ^ 64) :
    s.buffer.mReadPos.toNat ≤ s.buffer.mWritePos.toNat ∧
    s.buffer.mWritePos.toNat ≤ s.buffer.mReadPos.toNat + n.mSize.toNat ∧
    (∀ v w, s.producer = .loaded v w → s.buffer.mReadPos.toNat ≤ w.toNat) ∧
    (claims log).map UInt64.toNat = List.range s.buffer.mReadPos.toNat ∧
    (claims log).Nodup ∧
    (published log).map (fun e => e.1.toNat) = List.range s.buffer.mWritePos.toNat ∧
    Backed log := by
  have hinv := inv_of_run h
  obtain ⟨hwrite, hread, hle, hroom⟩ := hinv.positions
  rw [Nat.mod_eq_of_lt hw] at hwrite
  have hclaimed := hinv.claimed
  refine ⟨by omega, by omega, ?_, by rw [hclaimed, hread], ?_, ?_, backed_of_run h⟩
  · intro v w hp
    have hadd := hinv.producer
    rw [hp] at hadd
    have hsame : w.toNat = s.buffer.mWritePos.toNat := congrArg UInt64.toNat hadd
    omega
  · have hnodup : ((claims log).map UInt64.toNat).Nodup := by
      rw [hclaimed]
      exact List.nodup_range
    exact hnodup.of_map _
  · rw [hinv.numbered, hwrite]
    refine (List.map_congr_left fun k hk => ?_).trans (List.map_id _)
    have hlt := List.mem_range.mp hk
    exact Nat.mod_eq_of_lt (by omega)

/- Two consumers race for one entry; one compare-exchange fails. -/
theorem shared_positions_safe_race :
    ∃ (s : State Bool ℕ .smallest) (log : List (Event Bool ℕ)),
      .exchangeFailed true ∈ log ∧ claims log = [0] ∧ Backed log ∧
      s.buffer.mReadPos.toNat ≤ s.buffer.mWritePos.toNat := by
  obtain ⟨s, log, hr, hlog⟩ := run_of_observed step (initial : State Bool ℕ .smallest)
    [.callAdd (default, 7), .producer, .producer, .producer, .producer, .callGet false,
      .callGet true, .consumer false, .consumer true, .consumer false, .consumer true,
      .consumer false, .consumer true, .consumer false, .consumer true, .consumer false]
    (fun r => (r.2, decide ((published r.2).length < 2 ^ 64)))
    (show _ = some ([.published 0 (default, 7), .claimed false 0, .exchangeFailed true,
      .returned false 0 (default, 7)], true) by decide +kernel)
  obtain ⟨rfl, hw⟩ := Prod.mk.inj hlog
  have hsafe := shared_positions_safe _ _ s _ hr (of_decide_eq_true hw)
  exact ⟨s, _, by simp, rfl, hsafe.2.2.2.2.2.2, hsafe.1⟩

end RestClient.Shared
