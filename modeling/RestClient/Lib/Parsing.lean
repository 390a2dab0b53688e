import Mathlib.Data.List.Infix
import Mathlib.Data.List.TakeWhile

/-!
# Parsers of a stream

A parser reads a value off the front of its input and returns the rest. It is
stable when input that arrives later changes neither the value nor what was
consumed; stability is kept by every way of combining parsers used here.
-/

namespace Parsing
variable {β α γ : Type*}

/-- `none`: the input does not begin with a value, or not yet with a whole one. -/
abbrev Parser (β α : Type*) := List β → Option (α × List β)

def ret (a : α) : Parser β α := fun b => some (a, b)

def andThen (p : Parser β α) (f : α → Parser β γ) : Parser β γ :=
  fun b => (p b).bind fun r => f r.1 r.2

/-- Fails unless the condition holds. -/
def check (c : Bool) : Parser β Unit := fun b => if c then some ((), b) else none

def literal [DecidableEq β] (l : List β) : Parser β Unit :=
  fun b => if l <+: b then some ((), b.drop l.length) else none

/-- The longest run of elements to keep. An element that is not kept must follow. -/
def word (keep : β → Bool) : Parser β (List β) := fun b =>
  match b.dropWhile keep with
  | [] => none
  | d :: rest => some (b.takeWhile keep, d :: rest)

def exactly (n : ℕ) : Parser β (List β) :=
  fun b => if n ≤ b.length then some (b.take n, b.drop n) else none

/-- Items up to a stop, fewer than `limit` of them. -/
def manyUntil (stop : Parser β Unit) (item : Parser β α) : ℕ → Parser β (List α)
  | 0, _ => none
  | limit + 1, b =>
    match stop b with
    | some (_, rest) => some ([], rest)
    | none => andThen item (fun a => andThen (manyUntil stop item limit) fun as => ret (a :: as)) b

/-! ### What a parser does on the input it is made for -/

theorem andThen_of_some {p : Parser β α} {b rest : List β} {a : α} (h : p b = some (a, rest))
    (f : α → Parser β γ) : andThen p f b = f a rest := by
  rw [andThen, h]
  rfl

theorem andThen_eq_some {p : Parser β α} {f : α → Parser β γ} {b rest : List β} {c : γ}
    (h : andThen p f b = some (c, rest)) :
    ∃ a mid, p b = some (a, mid) ∧ f a mid = some (c, rest) := by
  obtain ⟨⟨a, mid⟩, hp, hf⟩ := Option.bind_eq_some_iff.mp h
  exact ⟨a, mid, hp, hf⟩

theorem check_of_true {c : Bool} (h : c = true) (b : List β) : check c b = some ((), b) := if_pos h

theorem literal_append [DecidableEq β] (l rest : List β) :
    literal l (l ++ rest) = some ((), rest) := by
  rw [literal, if_pos (List.prefix_append l rest), List.drop_left]

theorem word_append {keep : β → Bool} {w : List β} (hw : ∀ c ∈ w, keep c = true) {d : β}
    (hd : keep d = false) (rest : List β) : word keep (w ++ d :: rest) = some (w, d :: rest) := by
  have hdrop : (w ++ d :: rest).dropWhile keep = d :: rest := by
    rw [List.dropWhile_append_of_pos hw, List.dropWhile_cons_of_neg (by simp [hd])]
  have htake : (w ++ d :: rest).takeWhile keep = w := by
    rw [List.takeWhile_append_of_pos hw, List.takeWhile_cons_of_neg (by simp [hd]), List.append_nil]
  rw [word, hdrop, htake]

theorem word_kept {keep : β → Bool} {b w rest : List β} (h : word keep b = some (w, rest)) :
    ∀ c ∈ w, keep c = true := by
  unfold word at h
  split at h
  · cases h
  · cases h
    intro c hc
    exact List.mem_takeWhile_imp hc

theorem manyUntil_stop {stop : Parser β Unit} {item : Parser β α} {b rest : List β}
    (h : stop b = some ((), rest)) (limit : ℕ) :
    manyUntil stop item (limit + 1) b = some ([], rest) := by
  rw [manyUntil, h]

theorem manyUntil_item {stop : Parser β Unit} {item : Parser β α} {b mid rest : List β} {a : α}
    {as : List α} {limit : ℕ} (hstop : stop b = none) (hitem : item b = some (a, mid))
    (hrest : manyUntil stop item limit mid = some (as, rest)) :
    manyUntil stop item (limit + 1) b = some (a :: as, rest) := by
  rw [manyUntil, hstop]
  dsimp only
  rw [andThen_of_some hitem, andThen_of_some hrest, ret]

/-- Items written one after the other, then what is read as a stop, are read back. -/
theorem manyUntil_flatMap {δ : Type*} {stop : Parser β Unit} {item : Parser β α}
    {write : δ → List β} {value : δ → α} {tail rest : List β} {xs : List δ} {limit : ℕ}
    (hlimit : xs.length < limit) (hend : stop tail = some ((), rest))
    (hstop : ∀ x ∈ xs, ∀ more, stop (write x ++ more) = none)
    (hitem : ∀ x ∈ xs, ∀ more, item (write x ++ more) = some (value x, more)) :
    manyUntil stop item limit (xs.flatMap write ++ tail) = some (xs.map value, rest) := by
  induction xs generalizing limit with
  | nil =>
    obtain ⟨limit, rfl⟩ := Nat.exists_eq_succ_of_ne_zero (Nat.ne_of_gt hlimit)
    exact manyUntil_stop hend limit
  | cons x xs ih =>
    obtain ⟨limit, rfl⟩ := Nat.exists_eq_succ_of_ne_zero (Nat.ne_zero_of_lt hlimit)
    have hx : x ∈ x :: xs := List.mem_cons_self ..
    rw [List.flatMap_cons, List.append_assoc]
    exact manyUntil_item (hstop x hx _) (hitem x hx _)
      (ih (Nat.lt_of_succ_lt_succ hlimit)
        (fun y hy => hstop y (List.mem_cons_of_mem x hy))
        (fun y hy => hitem y (List.mem_cons_of_mem x hy)))

/-- What holds of every item read holds of all the items. -/
theorem manyUntil_forall {stop : Parser β Unit} {item : Parser β α} {P : α → Prop}
    (hitem : ∀ b a rest, item b = some (a, rest) → P a) {limit : ℕ} {b rest : List β} {as : List α}
    (h : manyUntil stop item limit b = some (as, rest)) : ∀ a ∈ as, P a := by
  induction limit generalizing b as with
  | zero => cases h
  | succ limit ih =>
    rw [manyUntil] at h
    split at h
    · cases h
      intro a ha
      cases ha
    · obtain ⟨a, mid, hmid, hrest⟩ := andThen_eq_some h
      obtain ⟨as', tail, htail, hlast⟩ := andThen_eq_some hrest
      cases hlast
      intro c hc
      rcases List.mem_cons.mp hc with rfl | hc
      · exact hitem b c mid hmid
      · exact ih htail c hc

theorem length_le_flatMap {δ : Type*} {write : δ → List β} {xs : List δ}
    (h : ∀ x ∈ xs, write x ≠ []) : xs.length ≤ (xs.flatMap write).length := by
  induction xs with
  | nil => exact Nat.le_refl 0
  | cons x xs ih =>
    have hx := List.length_pos_of_ne_nil (h x (List.mem_cons_self ..))
    have hxs := ih fun y hy => h y (List.mem_cons_of_mem x hy)
    rw [List.flatMap_cons, List.length_append, List.length_cons]
    omega

/-! ### Stability -/

def Stable (p : Parser β α) : Prop :=
  ∀ b a rest more, p b = some (a, rest) → p (b ++ more) = some (a, rest ++ more)

theorem stable_ret (a : α) : Stable (ret a : Parser β α) := by
  intro b a' rest more h
  cases h
  rfl

theorem Stable.andThen {p : Parser β α} {f : α → Parser β γ} (hp : Stable p)
    (hf : ∀ a, Stable (f a)) : Stable (andThen p f) := by
  intro b c rest more h
  obtain ⟨a, mid, hmid, hrest⟩ := andThen_eq_some h
  rw [andThen_of_some (hp b a mid more hmid)]
  exact hf a mid c rest more hrest

theorem stable_literal [DecidableEq β] (l : List β) : Stable (literal l) := by
  intro b a rest more h
  obtain ⟨⟨t, rfl⟩, hr⟩ := Option.ite_none_right_eq_some.mp h
  rw [List.drop_left] at hr
  cases hr
  rw [List.append_assoc]
  exact literal_append l _

theorem stable_word (keep : β → Bool) : Stable (word keep) := by
  intro b w rest more h
  unfold word at h
  split at h
  · cases h
  · rename_i d tail hdrop
    cases h
    have hd : keep d = false := by
      have hhead := List.head?_dropWhile_not keep b
      rw [hdrop] at hhead
      simpa using hhead
    have hsplit : b = b.takeWhile keep ++ d :: tail := by
      rw [← hdrop, List.takeWhile_append_dropWhile]
    have hkept : ∀ c ∈ b.takeWhile keep, keep c = true := fun c hc => List.mem_takeWhile_imp hc
    conv_lhs => rw [hsplit, List.append_assoc, List.cons_append]
    exact word_append hkept hd (tail ++ more)

theorem stable_exactly (n : ℕ) : Stable (exactly n : Parser β (List β)) := by
  intro b w rest more h
  obtain ⟨hn, hr⟩ := Option.ite_none_right_eq_some.mp h
  cases hr
  have hle : n ≤ (b ++ more).length := by
    rw [List.length_append]
    omega
  rw [exactly, if_pos hle, List.take_append_of_le_length hn, List.drop_append_of_le_length hn]

end Parsing
