import Mathlib.Data.List.Infix
import Mathlib.Data.List.TakeWhile

/-!
# Scanners of input that is still arriving

A scanner is run on what has arrived of its input: it returns a value and what is
left, or an error, or it needs more. It is incremental when input that arrives
later does not change what it has decided, and when it decides with at most one
symbol beyond those it consumes. Scanners may then be run again and again on a
growing buffer.
-/

namespace Scanning
variable {ε β α γ σ : Type*}

inductive Scanned (ε β α : Type*) where
  | done (a : α) (rest : List β)
  | failed (e : ε)
  | more
  deriving DecidableEq

abbrev Scanner (ε β α : Type*) := List β → Scanned ε β α

namespace Scanned

/-- The same result with further input behind what is left. -/
def extend (later : List β) : Scanned ε β α → Scanned ε β α
  | done a rest => done a (rest ++ later)
  | failed e => failed e
  | more => more

end Scanned

open Scanned

def ret (a : α) : Scanner ε β α := fun b => done a b

def fail (e : ε) : Scanner ε β α := fun _ => failed e

def andThen (p : Scanner ε β α) (f : α → Scanner ε β γ) : Scanner ε β γ := fun b =>
  match p b with
  | done a rest => f a rest
  | failed e => failed e
  | more => more

def item : Scanner ε β β
  | [] => more
  | c :: rest => done c rest

/-- The next symbol, which is not consumed. -/
def peek : Scanner ε β β
  | [] => more
  | c :: rest => done c (c :: rest)

/-- The longest run of symbols to keep. A symbol that is not kept must follow. -/
def span (keep : β → Bool) : Scanner ε β (List β) := fun b =>
  match b.dropWhile keep with
  | [] => more
  | d :: rest => done (b.takeWhile keep) (d :: rest)

def exactly (n : ℕ) : Scanner ε β (List β) := fun b =>
  if n ≤ b.length then done (b.take n) (b.drop n) else more

def lift : Except ε α → Scanner ε β α
  | .ok a => ret a
  | .error e => fail e

def require (c : Bool) (e : ε) : Scanner ε β Unit := if c then ret () else fail e

/-- Nothing is decided before `n` symbols have arrived. -/
def atLeast (n : ℕ) (p : Scanner ε β α) : Scanner ε β α := fun b =>
  if n ≤ b.length then p b else more

/-- The body is run until it returns a value of the right kind, at most `n` times. -/
def loop (body : σ → Scanner ε β (σ ⊕ α)) : ℕ → σ → Scanner ε β α
  | 0, _, _ => more
  | n + 1, s, b =>
    match body s b with
    | done (.inl s') rest => loop body n s' rest
    | done (.inr a) rest => done a rest
    | failed e => failed e
    | more => more

/-- A body that consumes is never run more often than there are symbols. -/
def repeated (body : σ → Scanner ε β (σ ⊕ α)) (s : σ) : Scanner ε β α := fun b =>
  loop body (b.length + 1) s b

/-- How far a repetition gets: it waits in the state it has reached when it needs more. -/
inductive Advanced (ε β σ α : Type*) where
  | ended (a : α) (rest : List β)
  | failed (e : ε)
  | waiting (s : σ) (rest : List β)

def advanceLoop (body : σ → Scanner ε β (σ ⊕ α)) : ℕ → σ → List β → Advanced ε β σ α
  | 0, s, b => .waiting s b
  | n + 1, s, b =>
    match body s b with
    | done (.inl s') rest => advanceLoop body n s' rest
    | done (.inr a) rest => .ended a rest
    | failed e => .failed e
    | more => .waiting s b

def advance (body : σ → Scanner ε β (σ ⊕ α)) (s : σ) (b : List β) : Advanced ε β σ α :=
  advanceLoop body (b.length + 1) s b

/-! ### Results of the combinations -/

theorem andThen_of_done {p : Scanner ε β α} {b rest : List β} {a : α} (h : p b = done a rest)
    (f : α → Scanner ε β γ) : andThen p f b = f a rest := by
  rw [andThen, h]

theorem andThen_eq_done {p : Scanner ε β α} {f : α → Scanner ε β γ} {b rest : List β} {c : γ}
    (h : andThen p f b = done c rest) : ∃ a mid, p b = done a mid ∧ f a mid = done c rest := by
  unfold andThen at h
  split at h
  · exact ⟨_, _, by assumption, h⟩
  · cases h
  · cases h

theorem andThen_eq_more {p : Scanner ε β α} {f : α → Scanner ε β γ} {b : List β}
    (h : andThen p f b = more) : p b = more ∨ ∃ a mid, p b = done a mid ∧ f a mid = more := by
  unfold andThen at h
  split at h
  · exact .inr ⟨_, _, by assumption, h⟩
  · cases h
  · exact .inl (by assumption)

theorem require_eq_done {c : Bool} {e : ε} {b rest : List β} {u : Unit}
    (h : require c e b = done u rest) : c = true ∧ rest = b := by
  unfold require at h
  split at h
  · cases h
    exact ⟨by assumption, rfl⟩
  · cases h

theorem require_ne_more {c : Bool} {e : ε} {b : List β} : require c e b ≠ more := by
  unfold require
  split <;> exact nofun

theorem item_eq_done {b rest : List β} {c : β} (h : (item b : Scanned ε β β) = done c rest) :
    b = c :: rest := by
  cases b with
  | nil => cases h
  | cons d b =>
    cases h
    rfl

theorem item_eq_more {b : List β} (h : (item b : Scanned ε β β) = more) : b = [] := by
  cases b with
  | nil => rfl
  | cons d b => cases h

theorem peek_eq_done {b rest : List β} {c : β} (h : (peek b : Scanned ε β β) = done c rest) :
    rest = b ∧ ∃ tail, b = c :: tail := by
  cases b with
  | nil => cases h
  | cons d b =>
    cases h
    exact ⟨rfl, b, rfl⟩

theorem peek_eq_more {b : List β} (h : (peek b : Scanned ε β β) = more) : b = [] := by
  cases b with
  | nil => rfl
  | cons d b => cases h

theorem lift_eq_done {x : Except ε α} {b rest : List β} {a : α} (h : lift x b = done a rest) :
    x = .ok a ∧ rest = b := by
  cases x with
  | ok a' =>
    cases h
    exact ⟨rfl, rfl⟩
  | error e => cases h

theorem lift_ne_more {x : Except ε α} {b : List β} : lift x b ≠ more := by
  cases x <;> exact nofun

theorem span_eq_more {keep : β → Bool} {b : List β}
    (h : (span keep b : Scanned ε β (List β)) = more) : ∀ c ∈ b, keep c = true := by
  unfold span at h
  split at h
  · rename_i hnil
    exact List.dropWhile_eq_nil_iff.mp hnil
  · cases h

theorem span_append {keep : β → Bool} {w : List β} (hw : ∀ c ∈ w, keep c = true) {d : β}
    (hd : keep d = false) (rest : List β) :
    (span keep (w ++ d :: rest) : Scanned ε β (List β)) = done w (d :: rest) := by
  have hdrop : (w ++ d :: rest).dropWhile keep = d :: rest := by
    rw [List.dropWhile_append_of_pos hw, List.dropWhile_cons_of_neg (by simp [hd])]
  have htake : (w ++ d :: rest).takeWhile keep = w := by
    rw [List.takeWhile_append_of_pos hw, List.takeWhile_cons_of_neg (by simp [hd]), List.append_nil]
  rw [span, hdrop, htake]

theorem span_eq_done {keep : β → Bool} {b w rest : List β}
    (h : (span keep b : Scanned ε β (List β)) = done w rest) :
    b = w ++ rest ∧ (∀ c ∈ w, keep c = true) ∧ ∃ d tail, rest = d :: tail ∧ keep d = false := by
  unfold span at h
  split at h
  · cases h
  · rename_i d tail hdrop
    cases h
    refine ⟨?_, fun c hc => List.mem_takeWhile_imp hc, d, tail, rfl, ?_⟩
    · rw [← hdrop, List.takeWhile_append_dropWhile]
    · have hhead := List.head?_dropWhile_not keep b
      rw [hdrop] at hhead
      simpa using hhead

theorem exactly_append (w rest : List β) :
    (exactly w.length (w ++ rest) : Scanned ε β (List β)) = done w rest := by
  rw [exactly, if_pos (by rw [List.length_append]; omega), List.take_left, List.drop_left]

theorem exactly_eq_done {n : ℕ} {b w rest : List β}
    (h : (exactly n b : Scanned ε β (List β)) = done w rest) : b = w ++ rest ∧ w.length = n := by
  unfold exactly at h
  split at h
  · rename_i hn
    cases h
    exact ⟨(List.take_append_drop n b).symm, List.length_take_of_le hn⟩
  · cases h

theorem atLeast_eq_done {n : ℕ} {p : Scanner ε β α} {b rest : List β} {a : α}
    (h : atLeast n p b = done a rest) : n ≤ b.length ∧ p b = done a rest := by
  unfold atLeast at h
  split at h
  · exact ⟨by assumption, h⟩
  · cases h

/- What is left of a count after a first part of the symbols. -/
theorem exactly_later {n : ℕ} {b : List β} (hb : b.length ≤ n) (f : List β → Scanner ε β α)
    (later : List β) : andThen (exactly n) f (b ++ later) =
      andThen (exactly (n - b.length)) (fun w => f (b ++ w)) later := by
  unfold andThen exactly
  by_cases hn : n ≤ b.length + later.length
  · have hsplit : n = b.length + (n - b.length) := by omega
    have htake : (b ++ later).take n = b ++ later.take (n - b.length) := by
      conv_lhs => rw [hsplit, List.take_length_add_append]
    have hdrop : (b ++ later).drop n = later.drop (n - b.length) := by
      conv_lhs => rw [hsplit, List.drop_length_add_append]
    rw [if_pos (by rw [List.length_append]; exact hn), if_pos (by omega), htake, hdrop]
  · rw [if_neg (by rw [List.length_append]; exact hn), if_neg (by omega)]

theorem exactly_zero (f : List β → Scanner ε β α) (b : List β) :
    andThen (exactly 0) f b = f [] b := rfl

/-! ### What is consumed -/

/-- A value is returned only for `n` symbols or more. -/
def Takes (n : ℕ) (p : Scanner ε β α) : Prop :=
  ∀ b a rest, p b = done a rest → rest.length + n ≤ b.length

namespace Takes
variable {p q : Scanner ε β α} {f : α → Scanner ε β γ} {m n : ℕ}

protected theorem fail (n : ℕ) (e : ε) : Takes n (fail e : Scanner ε β α) := nofun

protected theorem item : Takes 1 (item : Scanner ε β β) := by
  intro b a rest h
  cases b with
  | nil => cases h
  | cons c b =>
    cases h
    exact Nat.le_refl _

protected theorem exactly (n : ℕ) : Takes n (exactly n : Scanner ε β (List β)) := by
  intro b w rest h
  obtain ⟨rfl, rfl⟩ := exactly_eq_done h
  rw [List.length_append]
  omega

protected theorem andThen (hp : Takes m p) (hf : ∀ a, Takes n (f a)) :
    Takes (m + n) (andThen p f) := by
  intro b c rest h
  obtain ⟨a, mid, hmid, hrest⟩ := andThen_eq_done h
  have h1 := hp b a mid hmid
  have h2 := hf a mid c rest hrest
  omega

protected theorem ite {c : Prop} [Decidable c] (hp : Takes n p) (hq : Takes n q) :
    Takes n (if c then p else q) := by
  split
  · exact hp
  · exact hq

theorem mono (h : Takes n p) (hm : m ≤ n) : Takes m p := by
  intro b a rest hb
  have hle := h b a rest hb
  omega

end Takes

/-! ### Incremental scanners -/

structure Incremental (p : Scanner ε β α) : Prop where
  final : ∀ b later, p b ≠ more → p (b ++ later) = (p b).extend later
  prompt : ∀ b later a rest, p (b ++ later) = done a rest → later.length < rest.length →
    p b ≠ more
  suffix : ∀ b a rest, p b = done a rest → rest <:+ b

namespace Incremental
variable {p : Scanner ε β α} {f : α → Scanner ε β γ}

theorem shrinks (h : Incremental p) {b rest : List β} {a : α} (hp : p b = done a rest) :
    rest.length ≤ b.length := (h.suffix b a rest hp).length_le

theorem done_append (h : Incremental p) {b rest : List β} {a : α} (hp : p b = done a rest)
    (later : List β) : p (b ++ later) = done a (rest ++ later) := by
  rw [h.final b later (by rw [hp]; exact nofun), hp]
  rfl

theorem failed_append (h : Incremental p) {b : List β} {e : ε} (hp : p b = failed e)
    (later : List β) : p (b ++ later) = failed e := by
  rw [h.final b later (by rw [hp]; exact nofun), hp]
  rfl

/-- What is decided on a longer input and consumes less than the shorter one is decided
on the shorter one. -/
theorem of_append (h : Incremental p) {b later rest : List β} {a : α}
    (hp : p (b ++ later) = done a rest) (hlt : later.length < rest.length) :
    ∃ rest', p b = done a rest' ∧ rest = rest' ++ later := by
  have hne := h.prompt b later a rest hp hlt
  cases hb : p b with
  | done a' rest' =>
    rw [h.done_append hb] at hp
    cases hp
    exact ⟨rest', rfl, rfl⟩
  | failed e =>
    rw [h.failed_append hb] at hp
    cases hp
  | more => exact absurd hb hne

protected theorem ret (a : α) : Incremental (ret a : Scanner ε β α) where
  final _ _ _ := rfl
  prompt _ _ _ _ _ _ := nofun
  suffix b a' rest h := by
    cases h
    exact List.suffix_refl _

protected theorem fail (e : ε) : Incremental (fail e : Scanner ε β α) where
  final _ _ _ := rfl
  prompt _ _ _ _ _ _ := nofun
  suffix _ _ _ h := nomatch h

protected theorem item : Incremental (item : Scanner ε β β) where
  final b later h := by
    cases b with
    | nil => exact absurd rfl h
    | cons c b => rfl
  prompt b later a rest h hlt := by
    cases b with
    | nil =>
      cases later with
      | nil => cases h
      | cons c later =>
        cases h
        exact absurd hlt (by simp)
    | cons c b => exact nofun
  suffix b a rest h := by
    cases b with
    | nil => cases h
    | cons c b =>
      cases h
      exact List.suffix_cons _ _

protected theorem peek : Incremental (peek : Scanner ε β β) where
  final b later h := by
    cases b with
    | nil => exact absurd rfl h
    | cons c b => rfl
  prompt b later a rest h hlt := by
    cases b with
    | nil =>
      cases later with
      | nil => cases h
      | cons c later =>
        cases h
        exact absurd hlt (Nat.lt_irrefl _)
    | cons c b => exact nofun
  suffix b a rest h := by
    cases b with
    | nil => cases h
    | cons c b =>
      cases h
      exact List.suffix_refl _

protected theorem span (keep : β → Bool) : Incremental (span keep : Scanner ε β (List β)) where
  final b later h := by
    cases hb : (span keep b : Scanned ε β (List β)) with
    | done w rest =>
      obtain ⟨rfl, hw, d, tail, rfl, hd⟩ := span_eq_done hb
      rw [List.append_assoc, List.cons_append, span_append hw hd]
      rfl
    | failed e =>
      unfold span at hb
      split at hb <;> cases hb
    | more => exact absurd hb h
  prompt b later w rest h hlt := by
    obtain ⟨hsplit, hw, d, tail, rfl, hd⟩ := span_eq_done h
    -- the symbol that ends the run is among those that have arrived
    have hd' : d ∈ b := by
      have hlen := congrArg List.length hsplit
      simp only [List.length_append, List.length_cons] at hlen hlt
      have hget : (b ++ later)[w.length]? = some d := by simp [hsplit]
      rw [List.getElem?_append_left (by omega)] at hget
      exact List.mem_of_getElem? hget
    intro hmore
    unfold span at hmore
    split at hmore
    · rename_i hnil
      have hall := List.dropWhile_eq_nil_iff.mp hnil d hd'
      exact absurd (hall.symm.trans hd) (by simp)
    · cases hmore
  suffix b w rest h := by
    obtain ⟨rfl, -, -⟩ := span_eq_done h
    exact List.suffix_append _ _

protected theorem exactly (n : ℕ) : Incremental (exactly n : Scanner ε β (List β)) where
  final b later h := by
    unfold exactly at h ⊢
    by_cases hn : n ≤ b.length
    · rw [if_pos hn, if_pos (by rw [List.length_append]; omega),
        List.take_append_of_le_length hn, List.drop_append_of_le_length hn]
      rfl
    · exact absurd (if_neg hn) h
  prompt b later w rest h hlt := by
    obtain ⟨hsplit, rfl⟩ := exactly_eq_done h
    have hlen := congrArg List.length hsplit
    simp only [List.length_append] at hlen
    rw [exactly, if_pos (by omega)]
    exact nofun
  suffix b w rest h := by
    obtain ⟨rfl, -⟩ := exactly_eq_done h
    exact List.suffix_append _ _

protected theorem andThen (hp : Incremental p) (hf : ∀ a, Incremental (f a)) :
    Incremental (andThen p f) where
  final b later h := by
    unfold Scanning.andThen at h ⊢
    cases hb : p b with
    | done a rest =>
      rw [hb] at h
      rw [hp.done_append hb]
      exact (hf a).final rest later h
    | failed e =>
      rw [hp.failed_append hb]
      rfl
    | more =>
      rw [hb] at h
      exact absurd rfl h
  prompt b later c rest h hlt := by
    obtain ⟨a, mid, hmid, hrest⟩ := andThen_eq_done h
    have hle := (hf a).shrinks hrest
    obtain ⟨mid', hb, rfl⟩ := hp.of_append hmid (by omega)
    rw [andThen_of_done hb]
    exact (hf a).prompt mid' later c rest hrest hlt
  suffix b c rest h := by
    obtain ⟨a, mid, hmid, hrest⟩ := andThen_eq_done h
    exact ((hf a).suffix mid c rest hrest).trans (hp.suffix b a mid hmid)

protected theorem lift (x : Except ε α) : Incremental (lift x : Scanner ε β α) := by
  cases x with
  | ok a => exact .ret a
  | error e => exact .fail e

protected theorem require (c : Bool) (e : ε) :
    Incremental (require c e : Scanner ε β Unit) := by
  unfold Scanning.require
  split
  · exact .ret ()
  · exact .fail e

theorem takes (h : Incremental p) : Takes 0 p := fun _ _ _ hp => h.shrinks hp

protected theorem atLeast {n : ℕ} (hp : Incremental p) (hn : Takes n p) :
    Incremental (atLeast n p) where
  final b later h := by
    unfold Scanning.atLeast at h ⊢
    by_cases hle : n ≤ b.length
    · rw [if_pos hle] at h
      rw [if_pos hle, if_pos (by rw [List.length_append]; omega)]
      exact hp.final b later h
    · exact absurd (if_neg hle) h
  prompt b later a rest h hlt := by
    unfold Scanning.atLeast at h ⊢
    split at h
    · obtain ⟨rest', hb, -⟩ := hp.of_append h hlt
      have hle := hn b a rest' hb
      rw [if_pos (by omega), hb]
      exact nofun
    · cases h
  suffix b a rest h := by
    unfold Scanning.atLeast at h
    split at h
    · exact hp.suffix b a rest h
    · cases h

protected theorem ite {c : Prop} [Decidable c] {q : Scanner ε β α} (hp : Incremental p)
    (hq : Incremental q) : Incremental (if c then p else q) := by
  split
  · exact hp
  · exact hq

end Incremental

/-! ### Repetition -/

/-- The body consumes whenever it is to be run again. -/
def Consumes (body : σ → Scanner ε β (σ ⊕ α)) : Prop :=
  ∀ s b s' rest, body s b = done (.inl s') rest → rest.length < b.length

section Repetition
variable {body : σ → Scanner ε β (σ ⊕ α)}

theorem loop_enough (hc : Consumes body) {n : ℕ} {s : σ} {b : List β} (hn : b.length < n) :
    loop body n s b = repeated body s b := by
  suffices h : ∀ m n s b, b.length < m → b.length < n → loop body m s b = loop body n s b from
    h _ _ _ _ hn (Nat.lt_succ_self _)
  intro m
  induction m with
  | zero => exact fun n s b hm _ => absurd hm (Nat.not_lt_zero _)
  | succ m ih =>
    intro n s b hm hn
    cases n with
    | zero => exact absurd hn (Nat.not_lt_zero _)
    | succ n =>
      unfold loop
      cases hb : body s b with
      | done r rest =>
        cases r with
        | inl s' =>
          have hlt := hc s b s' rest hb
          exact ih n s' rest (by omega) (by omega)
        | inr a => rfl
      | failed e => rfl
      | more => rfl

theorem repeated_again (hc : Consumes body) {s s' : σ} {b rest : List β}
    (h : body s b = done (.inl s') rest) : repeated body s b = repeated body s' rest := by
  have hlt := hc s b s' rest h
  rw [repeated, loop, h]
  exact loop_enough hc hlt

theorem repeated_stop {s : σ} {b rest : List β} {a : α} (h : body s b = done (.inr a) rest) :
    repeated body s b = done a rest := by
  rw [repeated, loop, h]

theorem repeated_failed {s : σ} {b : List β} {e : ε} (h : body s b = failed e) :
    repeated body s b = failed e := by
  rw [repeated, loop, h]

theorem repeated_more {s : σ} {b : List β} (h : body s b = more) : repeated body s b = more := by
  rw [repeated, loop, h]

theorem repeated_eq_done (hc : Consumes body) {s : σ} {b rest : List β} {a : α}
    (h : repeated body s b = done a rest) : body s b = done (.inr a) rest ∨
      ∃ s' mid, body s b = done (.inl s') mid ∧ repeated body s' mid = done a rest := by
  cases hb : body s b with
  | done r mid =>
    cases r with
    | inl s' => exact .inr ⟨s', mid, rfl, (repeated_again hc hb).symm.trans h⟩
    | inr a' =>
      rw [repeated_stop hb] at h
      cases h
      exact .inl rfl
  | failed e =>
    rw [repeated_failed hb] at h
    cases h
  | more =>
    rw [repeated_more hb] at h
    cases h

theorem repeated_eq_more (hc : Consumes body) {s : σ} {b : List β} (h : repeated body s b = more) :
    body s b = more ∨ ∃ s' mid, body s b = done (.inl s') mid ∧ repeated body s' mid = more := by
  cases hb : body s b with
  | done r mid =>
    cases r with
    | inl s' => exact .inr ⟨s', mid, rfl, (repeated_again hc hb).symm.trans h⟩
    | inr a' =>
      rw [repeated_stop hb] at h
      cases h
  | failed e =>
    rw [repeated_failed hb] at h
    cases h
  | more => exact .inl rfl

theorem repeated_congr (hc : Consumes body) {s s' : σ} {b b' : List β}
    (h : body s b = body s' b') : repeated body s b = repeated body s' b' := by
  cases hb : body s' b' with
  | done r mid =>
    rw [hb] at h
    cases r with
    | inl t => rw [repeated_again hc h, repeated_again hc hb]
    | inr a => rw [repeated_stop h, repeated_stop hb]
  | failed e => rw [repeated_failed (h.trans hb), repeated_failed hb]
  | more => rw [repeated_more (h.trans hb), repeated_more hb]

theorem repeated_suffix (hc : Consumes body) (hbody : ∀ s, Incremental (body s)) {s : σ}
    {b rest : List β} {a : α} (h : repeated body s b = done a rest) : rest <:+ b := by
  induction hn : b.length using Nat.strong_induction_on generalizing b s with
  | _ n ih =>
    rcases repeated_eq_done hc h with hstop | ⟨s', mid, hagain, hmid⟩
    · exact (hbody s).suffix b _ rest hstop
    · have hless := hc s b s' mid hagain
      exact (ih _ (hn ▸ hless) hmid rfl).trans ((hbody s).suffix b _ mid hagain)

/- Induction on the length of what has arrived; the body consumes before it is run again. -/
theorem Incremental.repeated (hc : Consumes body) (hbody : ∀ s, Incremental (body s)) (s : σ) :
    Incremental (repeated body s) where
  final b later h := by
    induction hn : b.length using Nat.strong_induction_on generalizing b s with
    | _ n ih =>
      cases hb : body s b with
      | done r mid =>
        have happ := (hbody s).done_append hb later
        cases r with
        | inl s' =>
          rw [repeated_again hc hb] at h ⊢
          rw [repeated_again hc happ]
          exact ih _ (hn ▸ hc s b s' mid hb) s' mid h rfl
        | inr a =>
          rw [repeated_stop hb, repeated_stop happ]
          rfl
      | failed e =>
        rw [repeated_failed hb, repeated_failed ((hbody s).failed_append hb later)]
        rfl
      | more => exact absurd (repeated_more hb) h
  prompt b later a rest h hlt := by
    induction hn : b.length using Nat.strong_induction_on generalizing b s with
    | _ n ih =>
      rcases repeated_eq_done hc h with hstop | ⟨s', mid, hagain, hmid⟩
      · obtain ⟨rest', hb, -⟩ := (hbody s).of_append hstop hlt
        rw [repeated_stop hb]
        exact nofun
      · have hle := (repeated_suffix hc hbody hmid).length_le
        obtain ⟨mid', hb, rfl⟩ := (hbody s).of_append hagain (by omega)
        rw [repeated_again hc hb]
        exact ih _ (hn ▸ hc s b s' mid' hb) s' mid' hmid rfl
  suffix _ _ _ h := repeated_suffix hc hbody h

/- A repetition that is advanced part by part returns what it returns on the whole. -/
theorem repeated_of_advance (hc : Consumes body) (hbody : ∀ s, Incremental (body s)) {s : σ}
    {b : List β} (later : List β) :
    match advance body s b with
    | .ended a rest => repeated body s (b ++ later) = done a (rest ++ later)
    | .failed e => repeated body s (b ++ later) = failed e
    | .waiting s' rest => repeated body s (b ++ later) = repeated body s' (rest ++ later) ∧
        body s' rest = more ∧ rest.length ≤ b.length := by
  suffices h : ∀ n s b, b.length < n → match advanceLoop body n s b with
      | .ended a rest => repeated body s (b ++ later) = done a (rest ++ later)
      | .failed e => repeated body s (b ++ later) = failed e
      | .waiting s' rest => repeated body s (b ++ later) = repeated body s' (rest ++ later) ∧
          body s' rest = more ∧ rest.length ≤ b.length from h _ s b (Nat.lt_succ_self _)
  intro n
  induction n with
  | zero => exact fun s b hn => absurd hn (Nat.not_lt_zero _)
  | succ n ih =>
    intro s b hn
    unfold advanceLoop
    cases hb : body s b with
    | done r rest =>
      have happ := (hbody s).done_append hb later
      cases r with
      | inl s' =>
        have hlt := hc s b s' rest hb
        have hrest := ih s' rest (by omega)
        simp only [repeated_again hc happ]
        split <;> rename_i hadv <;> rw [hadv] at hrest
        · exact hrest
        · exact hrest
        · exact ⟨hrest.1, hrest.2.1, by omega⟩
      | inr a => exact repeated_stop happ
    | failed e => exact repeated_failed ((hbody s).failed_append hb later)
    | more => exact ⟨rfl, hb, Nat.le_refl _⟩

theorem repeated_of_ended (hc : Consumes body) (hbody : ∀ s, Incremental (body s)) {s : σ}
    {b rest : List β} {a : α} (h : advance body s b = .ended a rest) (later : List β) :
    repeated body s (b ++ later) = done a (rest ++ later) := by
  have hadv := repeated_of_advance hc hbody (s := s) (b := b) later
  rwa [h] at hadv

theorem repeated_of_waiting (hc : Consumes body) (hbody : ∀ s, Incremental (body s)) {s s' : σ}
    {b rest : List β} (h : advance body s b = .waiting s' rest) (later : List β) :
    repeated body s (b ++ later) = repeated body s' (rest ++ later) ∧ body s' rest = more ∧
      rest.length ≤ b.length := by
  have hadv := repeated_of_advance hc hbody (s := s) (b := b) later
  rwa [h] at hadv

theorem repeated_of_failed (hc : Consumes body) (hbody : ∀ s, Incremental (body s)) {s : σ}
    {b : List β} {e : ε} (h : advance body s b = .failed e) (later : List β) :
    repeated body s (b ++ later) = failed e := by
  have hadv := repeated_of_advance hc hbody (s := s) (b := b) later
  rwa [h] at hadv

/-- What every pass keeps holds when the last one is over. -/
theorem repeated_preserves {P : σ → Prop} {Q : α → Prop} (hc : Consumes body)
    (hagain : ∀ s b s' rest, P s → body s b = done (.inl s') rest → P s')
    (hstop : ∀ s b a rest, P s → body s b = done (.inr a) rest → Q a) {s : σ} (hs : P s)
    {b rest : List β} {a : α} (h : repeated body s b = done a rest) : Q a := by
  induction hn : b.length using Nat.strong_induction_on generalizing b s with
  | _ n ih =>
    rcases repeated_eq_done hc h with hlast | ⟨s', mid, hpass, hmid⟩
    · exact hstop s b a rest hs hlast
    · exact ih _ (hn ▸ hc s b s' mid hpass) (hagain s b s' mid hs hpass) hmid rfl

/- What every pass keeps holds where the repetition ends or waits. -/
theorem advance_preserves {P : σ → Prop} {Q : α → Prop}
    (hagain : ∀ s b s' rest, P s → body s b = done (.inl s') rest → P s')
    (hstop : ∀ s b a rest, P s → body s b = done (.inr a) rest → Q a) {s : σ} (hs : P s)
    (b : List β) : (∀ a rest, advance body s b = .ended a rest → Q a) ∧
      ∀ s' rest, advance body s b = .waiting s' rest → P s' := by
  suffices h : ∀ n s b, P s → (∀ a rest, advanceLoop body n s b = .ended a rest → Q a) ∧
      ∀ s' rest, advanceLoop body n s b = .waiting s' rest → P s' from h _ s b hs
  intro n
  induction n with
  | zero =>
    intro s b hs
    refine ⟨nofun, fun s' rest h => ?_⟩
    cases h
    exact hs
  | succ n ih =>
    intro s b hs
    unfold advanceLoop
    cases hb : body s b with
    | done r rest =>
      cases r with
      | inl s' => exact ih s' rest (hagain s b s' rest hs hb)
      | inr a =>
        refine ⟨fun a' rest' h => ?_, nofun⟩
        cases h
        exact hstop s b a rest hs hb
    | failed e => exact ⟨nofun, nofun⟩
    | more =>
      refine ⟨nofun, fun s' rest h => ?_⟩
      cases h
      exact hs

/- What is left where the repetition ends or waits. -/
theorem advance_suffix (hbody : ∀ s, Incremental (body s)) (s : σ) (b : List β) :
    (∀ a rest, advance body s b = .ended a rest → rest <:+ b) ∧
      ∀ s' rest, advance body s b = .waiting s' rest → rest <:+ b := by
  suffices h : ∀ n s b, (∀ a rest, advanceLoop body n s b = .ended a rest → rest <:+ b) ∧
      ∀ s' rest, advanceLoop body n s b = .waiting s' rest → rest <:+ b from h _ s b
  intro n
  induction n with
  | zero =>
    intro s b
    refine ⟨nofun, fun s' rest h => ?_⟩
    cases h
    exact List.suffix_refl _
  | succ n ih =>
    intro s b
    unfold advanceLoop
    cases hb : body s b with
    | done r mid =>
      have hmid := (hbody s).suffix b r mid hb
      cases r with
      | inl s' =>
        obtain ⟨hended, hwaiting⟩ := ih s' mid
        exact ⟨fun a rest h => (hended a rest h).trans hmid,
          fun s'' rest h => (hwaiting s'' rest h).trans hmid⟩
      | inr a =>
        refine ⟨fun a' rest h => ?_, nofun⟩
        cases h
        exact hmid
    | failed e => exact ⟨nofun, nofun⟩
    | more =>
      refine ⟨nofun, fun s' rest h => ?_⟩
      cases h
      exact List.suffix_refl _

end Repetition

end Scanning
