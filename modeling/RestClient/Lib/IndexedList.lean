import Mathlib.Data.List.Lattice
import Mathlib.Data.List.Nodup
import Mathlib.Data.List.TakeWhile
import Mathlib.Order.Lattice

/-!
# A list with an ordered index

The elements of a list are kept a second time, in the order of their keys. What is looked for
is found in the index, and what is found there has its place in the list. The two agree when the
elements of each key stand in both in the same order.
-/

namespace IndexedList
variable {α κ : Type*}

/-! ### Sorted lists -/

section Sorted
variable [LinearOrder κ] {key : α → κ} {s : List α}

/- A property that is had only in front of those that lack it. -/
theorem takeWhile_eq_filter {p : α → Bool}
    (hp : ∀ a b, key a ≤ key b → p b = true → p a = true) (hs : s.Pairwise (key · ≤ key ·)) :
    s.takeWhile p = s.filter p := by
  induction s with
  | nil => rfl
  | cons a s ih =>
    obtain ⟨hle, hs⟩ := List.pairwise_cons.mp hs
    by_cases ha : p a = true
    · rw [List.takeWhile_cons_of_pos ha, List.filter_cons_of_pos ha, ih hs]
    · have hnone : ∀ b ∈ a :: s, ¬ p b = true := by
        intro b hb hpb
        rcases List.mem_cons.mp hb with rfl | hb
        · exact ha hpb
        · exact ha (hp _ _ (hle b hb) hpb)
      rw [List.takeWhile_cons_of_neg ha, List.filter_eq_nil_iff.mpr hnone]

theorem dropWhile_eq_filter {p : α → Bool}
    (hp : ∀ a b, key a ≤ key b → p b = true → p a = true) (hs : s.Pairwise (key · ≤ key ·)) :
    s.dropWhile p = s.filter (fun a => !p a) := by
  induction s with
  | nil => rfl
  | cons a s ih =>
    obtain ⟨hle, hs⟩ := List.pairwise_cons.mp hs
    by_cases ha : p a = true
    · rw [List.dropWhile_cons_of_pos ha, List.filter_cons_of_neg (by simp [ha]), ih hs]
    · have hall : ∀ b ∈ a :: s, (!p b) = true := by
        intro b hb
        rcases List.mem_cons.mp hb with rfl | hb
        · simpa using ha
        · simpa using fun hpb => ha (hp _ _ (hle b hb) hpb)
      rw [List.dropWhile_cons_of_neg ha, List.filter_eq_self.mpr hall]

theorem below_closed (k : κ) (a b : α) (hab : key a ≤ key b) (hb : decide (key b < k) = true) :
    decide (key a < k) = true := decide_eq_true (lt_of_le_of_lt hab (of_decide_eq_true hb))

theorem upTo_closed (k : κ) (a b : α) (hab : key a ≤ key b) (hb : decide (key b ≤ k) = true) :
    decide (key a ≤ k) = true := decide_eq_true (le_trans hab (of_decide_eq_true hb))

end Sorted

/-! ### Lists by their keys -/

section Keys
variable [LinearOrder κ] (key : α → κ)

/-- The elements of a key. -/
def ofKey (k : κ) (l : List α) : List α := l.filter fun a => decide (key a = k)

def withoutKey (k : κ) (l : List α) : List α := l.filter fun a => decide (key a ≠ k)

/-- Behind the last element of its key, or at the end. -/
def addLast (e : α) : List α → List α
  | [] => [e]
  | b :: l =>
    if key b = key e ∧ ∀ c ∈ l, key c ≠ key e then b :: e :: l else b :: addLast e l

/-- The elements of a key stand together. -/
def Grouped : List α → Prop
  | [] => True
  | b :: l => ((∀ c ∈ l, key c ≠ key b) ∨ ∃ c t, l = c :: t ∧ key c = key b) ∧ Grouped l

variable {key} {k : κ} {e : α} {l : List α}

theorem mem_ofKey {a : α} : a ∈ ofKey key k l ↔ a ∈ l ∧ key a = k := by
  rw [ofKey, List.mem_filter, decide_eq_true_iff]

theorem mem_withoutKey {a : α} : a ∈ withoutKey key k l ↔ a ∈ l ∧ key a ≠ k := by
  rw [withoutKey, List.mem_filter, decide_eq_true_iff]

theorem ofKey_append (l l' : List α) :
    ofKey key k (l ++ l') = ofKey key k l ++ ofKey key k l' := List.filter_append l l'

theorem ofKey_cons_pos {b : α} (hb : key b = k) (l : List α) :
    ofKey key k (b :: l) = b :: ofKey key k l := List.filter_cons_of_pos (decide_eq_true hb)

theorem ofKey_cons_neg {b : α} (hb : key b ≠ k) (l : List α) :
    ofKey key k (b :: l) = ofKey key k l := List.filter_cons_of_neg (by simpa using hb)

theorem ofKey_eq_nil : ofKey key k l = [] ↔ ∀ c ∈ l, key c ≠ k := by
  rw [ofKey, List.filter_eq_nil_iff]
  simp

theorem withoutKey_cons_pos {b : α} (hb : key b = k) (l : List α) :
    withoutKey key k (b :: l) = withoutKey key k l :=
  List.filter_cons_of_neg (by simpa using hb)

theorem withoutKey_cons_neg {b : α} (hb : key b ≠ k) (l : List α) :
    withoutKey key k (b :: l) = b :: withoutKey key k l :=
  List.filter_cons_of_pos (decide_eq_true hb)

theorem withoutKey_eq_self (h : ∀ c ∈ l, key c ≠ k) : withoutKey key k l = l :=
  List.filter_eq_self.mpr fun c hc => decide_eq_true (h c hc)

theorem ofKey_withoutKey (k' : κ) (l : List α) :
    ofKey key k' (withoutKey key k l) = if k' = k then [] else ofKey key k' l := by
  split
  · rename_i hk
    subst hk
    exact ofKey_eq_nil.mpr fun c hc => (mem_withoutKey.mp hc).2
  · rename_i hk
    rw [ofKey, withoutKey, List.filter_filter]
    refine List.filter_congr fun a _ => ?_
    by_cases ha : key a = k'
    · simp [ha, hk]
    · simp [ha]

/- An element may be moved over elements of other keys. -/
theorem ofKey_swap (h : ∀ c ∈ l, key c ≠ key e) :
    ofKey key k (e :: l) = ofKey key k (l ++ [e]) := by
  rw [ofKey_append]
  by_cases he : key e = k
  · subst he
    rw [ofKey_cons_pos rfl, ofKey_eq_nil.mpr h, ofKey_cons_pos rfl]
    rfl
  · rw [ofKey_cons_neg he, ofKey_cons_neg he]
    exact (List.append_nil _).symm

theorem addLast_of_none (h : ∀ c ∈ l, key c ≠ key e) : addLast key e l = l ++ [e] := by
  induction l with
  | nil => rfl
  | cons b l ih =>
    obtain ⟨hb, hl⟩ := List.forall_mem_cons.mp h
    rw [addLast, if_neg fun hh => hb hh.1, ih hl]
    rfl

theorem ofKey_addLast (e : α) (l : List α) :
    ofKey key k (addLast key e l) = ofKey key k (l ++ [e]) := by
  induction l with
  | nil => rfl
  | cons b l ih =>
    rw [addLast]
    split
    · rename_i hlast
      rw [List.cons_append, ← List.singleton_append, ofKey_append, ofKey_swap hlast.2,
        ← ofKey_append]
      rfl
    · rw [← List.singleton_append, ofKey_append, ih, ← ofKey_append]
      rfl

theorem addLast_perm (e : α) (l : List α) : (addLast key e l).Perm (e :: l) := by
  induction l with
  | nil => exact List.Perm.refl _
  | cons b l ih =>
    rw [addLast]
    split
    · exact List.Perm.swap e b l
    · exact (ih.cons b).trans (List.Perm.swap e b l)

theorem grouped_addLast (h : Grouped key l) : Grouped key (addLast key e l) := by
  induction l with
  | nil => exact ⟨.inl nofun, trivial⟩
  | cons b l ih =>
    obtain ⟨hb, hl⟩ := h
    rw [addLast]
    split
    · rename_i hlast
      exact ⟨.inr ⟨e, l, rfl, hlast.1.symm⟩, .inl hlast.2, hl⟩
    · rename_i hlast
      refine ⟨?_, ih hl⟩
      obtain hnone | ⟨c, t, rfl, hc⟩ := hb
      · refine .inl fun c hc hcb => ?_
        rcases List.mem_cons.mp ((addLast_perm e l).mem_iff.mp hc) with rfl | hc
        · exact hlast ⟨hcb.symm, fun d hd hde => hnone d hd (hde.trans hcb)⟩
        · exact hnone c hc hcb
      · rw [addLast]
        split
        · exact .inr ⟨c, e :: t, rfl, hc⟩
        · exact .inr ⟨c, addLast key e t, rfl, hc⟩

theorem grouped_withoutKey (h : Grouped key l) : Grouped key (withoutKey key k l) := by
  induction l with
  | nil => exact trivial
  | cons b l ih =>
    obtain ⟨hb, hl⟩ := h
    by_cases hbk : key b = k
    · rw [withoutKey_cons_pos hbk]
      exact ih hl
    · rw [withoutKey_cons_neg hbk]
      refine ⟨?_, ih hl⟩
      obtain hnone | ⟨c, t, rfl, hc⟩ := hb
      · exact .inl fun c hc => hnone c (mem_withoutKey.mp hc).1
      · rw [withoutKey_cons_neg (hc ▸ hbk)]
        exact .inr ⟨c, _, rfl, hc⟩

/-- Those of a key follow each other, from where the first of them stands. -/
theorem takeWhile_grouped (h : Grouped key l) (k : κ) :
    (l.dropWhile fun a => decide (key a ≠ k)).takeWhile (fun a => decide (key a = k)) =
      ofKey key k l := by
  induction l with
  | nil => rfl
  | cons b l ih =>
    obtain ⟨hb, hl⟩ := h
    by_cases hbk : key b = k
    · rw [List.dropWhile_cons_of_neg (by simpa using hbk), ofKey_cons_pos hbk,
        List.takeWhile_cons_of_pos (p := fun a => decide (key a = k)) (decide_eq_true hbk)]
      refine congrArg (b :: ·) ?_
      obtain hnone | ⟨c, t, rfl, hc⟩ := hb
      · rw [ofKey_eq_nil.mpr (hbk ▸ hnone)]
        cases l with
        | nil => rfl
        | cons c t =>
          have hck : key c ≠ k := hbk ▸ hnone c List.mem_cons_self
          exact List.takeWhile_cons_of_neg (by simpa using hck)
      · rw [← ih hl, List.dropWhile_cons_of_neg (by simpa using hc.trans hbk)]
    · rw [List.dropWhile_cons_of_pos (p := fun a => decide (key a ≠ k)) (decide_eq_true hbk),
        ofKey_cons_neg hbk]
      exact ih hl

theorem dropWhile_grouped (h : Grouped key l) (k : κ) :
    ∃ back, (l.dropWhile fun a => decide (key a ≠ k)) = ofKey key k l ++ back := by
  rw [← takeWhile_grouped h k]
  exact ⟨_, List.takeWhile_append_dropWhile.symm⟩

theorem grouped_split (h : Grouped key l) (k : κ) :
    ∃ front back, l = front ++ ofKey key k l ++ back := by
  obtain ⟨back, hback⟩ := dropWhile_grouped h k
  refine ⟨l.takeWhile fun a => decide (key a ≠ k), back, ?_⟩
  rw [List.append_assoc, ← hback]
  exact List.takeWhile_append_dropWhile.symm

omit [LinearOrder κ] in
theorem grouped_front {l' : List α} (h : Grouped key (l ++ l')) : Grouped key l := by
  induction l with
  | nil => exact trivial
  | cons b l ih =>
    obtain ⟨hb, hl⟩ := h
    refine ⟨?_, ih hl⟩
    obtain hnone | ⟨c, t, ht, hc⟩ := hb
    · exact .inl fun c hc => hnone c (List.mem_append_left _ hc)
    · cases l with
      | nil => exact .inl nofun
      | cons d l =>
        obtain ⟨rfl, -⟩ := List.cons.inj ht
        exact .inr ⟨d, l, rfl, hc⟩

/- An element that may stand at the end is added there. -/
theorem addLast_of_grouped (h : Grouped key (l ++ [e])) : addLast key e l = l ++ [e] := by
  induction l with
  | nil => rfl
  | cons b l ih =>
    obtain ⟨hb, hl⟩ := h
    rw [addLast]
    split
    · rename_i hlast
      cases l with
      | nil => rfl
      | cons c l =>
        obtain hnone | ⟨d, t, ht, hd⟩ := hb
        · exact absurd hlast.1.symm (hnone e (List.mem_append_right _ List.mem_cons_self))
        · obtain ⟨rfl, -⟩ := List.cons.inj ht
          exact absurd (hd.trans hlast.1) (hlast.2 c List.mem_cons_self)
    · exact congrArg (b :: ·) (ih hl)

/-- Adding the elements of a list one after the other gives the list. -/
theorem foldl_addLast (h : Grouped key l) : l.foldl (fun acc e => addLast key e acc) [] = l := by
  suffices hfront : ∀ front, Grouped key (front ++ l) →
      l.foldl (fun acc e => addLast key e acc) front = front ++ l from hfront [] h
  clear h
  induction l with
  | nil => exact fun front _ => (List.append_nil front).symm
  | cons e l ih =>
    intro front h
    have hsplit : front ++ e :: l = front ++ [e] ++ l := by
      rw [List.append_assoc, List.singleton_append]
    rw [hsplit] at h ⊢
    rw [List.foldl_cons, addLast_of_grouped (grouped_front h)]
    exact ih _ h

end Keys

/-! ### Operations on the places of elements -/

section Places
variable [LinearOrder κ] [DecidableEq α] {key : α → κ} {k : κ} {e : α} {l s : List α}

/- Behind the place of `a`. -/
def insertAfter (a e : α) : List α → List α
  | [] => []
  | b :: l => if b = a then b :: e :: l else b :: insertAfter a e l

/- From the front to the place of `b`. -/
def upTo (b : α) : List α → List α
  | [] => []
  | c :: l => if c = b then [c] else c :: upTo b l

theorem ofKey_erase (a : α) (l : List α) :
    ofKey key k (l.erase a) = if key a = k then (ofKey key k l).erase a else ofKey key k l := by
  induction l with
  | nil => split <;> rfl
  | cons b l ih =>
    by_cases hb : b = a
    · subst hb
      rw [List.erase_cons_head]
      split
      · rename_i hk
        rw [ofKey_cons_pos hk, List.erase_cons_head]
      · rename_i hk
        rw [ofKey_cons_neg hk]
    · rw [List.erase_cons_tail (by simpa using hb)]
      by_cases hk : key b = k
      · rw [ofKey_cons_pos hk, ofKey_cons_pos hk, ih, List.erase_cons_tail (by simpa using hb)]
        split <;> rfl
      · rw [ofKey_cons_neg hk, ofKey_cons_neg hk, ih]

theorem withoutKey_erase {a : α} (ha : key a = k) (l : List α) :
    withoutKey key k (l.erase a) = withoutKey key k l := by
  induction l with
  | nil => rfl
  | cons b l ih =>
    by_cases hb : b = a
    · subst hb
      rw [List.erase_cons_head, withoutKey_cons_pos ha]
    · rw [List.erase_cons_tail (by simpa using hb)]
      by_cases hk : key b = k
      · rw [withoutKey_cons_pos hk, withoutKey_cons_pos hk, ih]
      · rw [withoutKey_cons_neg hk, withoutKey_cons_neg hk, ih]

omit [LinearOrder κ] in
theorem grouped_erase (a : α) (h : Grouped key l) : Grouped key (l.erase a) := by
  induction l with
  | nil => exact trivial
  | cons b l ih =>
    obtain ⟨hb, hl⟩ := h
    by_cases hba : b = a
    · rw [hba, List.erase_cons_head]
      exact hl
    · rw [List.erase_cons_tail (by simpa using hba)]
      refine ⟨?_, ih hl⟩
      obtain hnone | ⟨c, t, rfl, hc⟩ := hb
      · exact .inl fun c hc => hnone c (List.mem_of_mem_erase hc)
      · by_cases hca : c = a
        · rw [hca, List.erase_cons_head]
          subst hca
          obtain ⟨hd, -⟩ := hl
          rw [hc] at hd
          exact hd
        · rw [List.erase_cons_tail (by simpa using hca)]
          exact .inr ⟨c, _, rfl, hc⟩

/- The last element of its key is where a new one goes. -/
theorem insertAfter_eq_addLast {a : α} {front : List α} (hl : l.Nodup)
    (hclass : ofKey key (key e) l = front ++ [a]) : insertAfter a e l = addLast key e l := by
  induction l generalizing front with
  | nil => exact absurd hclass.symm (List.append_ne_nil_of_right_ne_nil _ (List.cons_ne_nil _ _))
  | cons b l ih =>
    obtain ⟨hbl, hl⟩ := List.nodup_cons.mp hl
    have ha : a ∈ ofKey key (key e) (b :: l) := by
      rw [hclass]
      exact List.mem_append_right _ List.mem_cons_self
    obtain ⟨hmem, hak⟩ := mem_ofKey.mp ha
    rw [insertAfter, addLast]
    by_cases hba : b = a
    · subst hba
      rw [ofKey_cons_pos hak] at hclass
      have hlast : ∀ c ∈ l, key c ≠ key e := by
        refine ofKey_eq_nil.mp ?_
        cases front with
        | nil => exact (List.cons.inj hclass).2
        | cons d front =>
          have htail := (List.cons.inj hclass).2
          refine absurd (mem_ofKey.mp (?_ : b ∈ ofKey key (key e) l)).1 hbl
          rw [htail]
          exact List.mem_append_right _ List.mem_cons_self
      rw [if_pos rfl, if_pos ⟨hak, hlast⟩]
    · have hal : a ∈ l := (List.mem_cons.mp hmem).resolve_left fun h => hba h.symm
      rw [if_neg hba, if_neg fun h => h.2 a hal hak]
      refine congrArg (b :: ·) ?_
      by_cases hbk : key b = key e
      · rw [ofKey_cons_pos hbk] at hclass
        cases front with
        | nil => exact absurd (List.cons.inj hclass).1 hba
        | cons d front => exact ih hl (List.cons.inj hclass).2
      · rw [ofKey_cons_neg hbk] at hclass
        exact ih hl hclass

theorem upTo_append {b : α} {front : List α} (hb : b ∉ front) (rest : List α) :
    upTo b (front ++ b :: rest) = front ++ [b] := by
  induction front with
  | nil => exact if_pos rfl
  | cons c front ih =>
    rw [List.mem_cons, not_or] at hb
    rw [List.cons_append, upTo, if_neg (Ne.symm hb.1), ih hb.2]
    rfl

/- The first of a key is reached over elements of other keys. -/
theorem dropWhile_first {a : α} {t : List α} (h : ofKey key k l = a :: t) :
    l.dropWhile (fun b => decide (b ≠ a)) = l.dropWhile (fun b => decide (key b ≠ k)) := by
  induction l with
  | nil => rfl
  | cons b l ih =>
    by_cases hbk : key b = k
    · rw [ofKey_cons_pos hbk] at h
      rw [List.dropWhile_cons_of_neg (by simpa using (List.cons.inj h).1),
        List.dropWhile_cons_of_neg (by simpa using hbk)]
    · have hak : key a = k := by
        refine (mem_ofKey.mp (?_ : a ∈ ofKey key k (b :: l))).2
        rw [h]
        exact List.mem_cons_self
      have hba : b ≠ a := fun hba => hbk (hba ▸ hak)
      rw [ofKey_cons_neg hbk] at h
      rw [List.dropWhile_cons_of_pos (p := fun b => decide (key b ≠ k)) (decide_eq_true hbk),
        List.dropWhile_cons_of_pos (p := fun b => decide (b ≠ a)) (decide_eq_true hba), ih h]

end Places

/-! ### The index -/

section Bounds
variable [LinearOrder κ] {key : α → κ} {k : κ} {s : List α}

theorem lower_eq (hs : s.Pairwise (key · ≤ key ·)) :
    (s.takeWhile fun a => decide (key a < k)) = s.filter (fun a => decide (key a < k)) ∧
    (s.dropWhile fun a => decide (key a < k)) = s.filter fun a => decide (k ≤ key a) := by
  refine ⟨takeWhile_eq_filter (below_closed k) hs, ?_⟩
  rw [dropWhile_eq_filter (below_closed k) hs]
  refine List.filter_congr fun a _ => ?_
  rw [← decide_not, decide_eq_decide, not_lt]

theorem upper_eq (hs : s.Pairwise (key · ≤ key ·)) :
    (s.takeWhile fun a => decide (key a ≤ k)) = s.filter (fun a => decide (key a ≤ k)) ∧
    (s.dropWhile fun a => decide (key a ≤ k)) = s.filter fun a => decide (k < key a) := by
  refine ⟨takeWhile_eq_filter (upTo_closed k) hs, ?_⟩
  rw [dropWhile_eq_filter (upTo_closed k) hs]
  refine List.filter_congr fun a _ => ?_
  rw [← decide_not, decide_eq_decide, not_le]

/- What is not above a key that occurs ends with the last element of the key. -/
theorem takeWhile_last {c : α} (hs : s.Pairwise (key · ≤ key ·)) (hc : c ∈ s) (hck : key c = k) :
    ∃ front a, (s.takeWhile fun a => decide (key a ≤ k)) = front ++ [a] ∧ key a = k ∧
      ofKey key k s = ofKey key k front ++ [a] := by
  have hcA : c ∈ s.takeWhile fun a => decide (key a ≤ k) := by
    rw [(upper_eq hs).1, List.mem_filter]
    exact ⟨hc, decide_eq_true hck.le⟩
  obtain ⟨front, a, hA⟩ := (List.eq_nil_or_concat _).resolve_left (List.ne_nil_of_mem hcA)
  rw [List.concat_eq_append] at hA
  have ha : key a = k := by
    have haA : a ∈ s.takeWhile fun a => decide (key a ≤ k) := by
      rw [hA]
      exact List.mem_append_right _ List.mem_cons_self
    have hle : key a ≤ k := of_decide_eq_true
      (List.mem_takeWhile_imp (p := fun a => decide (key a ≤ k)) haA)
    refine le_antisymm hle ?_
    rw [← hck]
    rw [hA] at hcA
    rcases List.mem_append.mp hcA with hfront | hlast
    · have hsorted : (front ++ [a]).Pairwise (key · ≤ key ·) :=
        hA ▸ hs.sublist (List.takeWhile_sublist _)
      exact (List.pairwise_append.mp hsorted).2.2 c hfront a List.mem_cons_self
    · rw [List.mem_singleton.mp hlast]
  have hall : ofKey key k s = ofKey key k (front ++ [a]) := by
    rw [← hA, (upper_eq hs).1, ofKey, ofKey, List.filter_filter]
    refine List.filter_congr fun b _ => ?_
    by_cases hb : key b = k
    · simp [hb]
    · simp [hb]
  refine ⟨front, a, hA, ha, ?_⟩
  rw [hall, ofKey_append, ofKey_cons_pos ha]
  rfl

/- Between the bounds of a key are its elements. -/
theorem equal_eq (hs : s.Pairwise (key · ≤ key ·)) :
    (s.dropWhile fun a => decide (key a < k)).takeWhile (fun a => decide (key a ≤ k)) =
      ofKey key k s := by
  rw [(lower_eq hs).2, (upper_eq (hs.filter _)).1, List.filter_filter]
  refine List.filter_congr fun a _ => ?_
  rw [← Bool.decide_and, decide_eq_decide]
  exact le_antisymm_iff.symm

end Bounds

section Place
variable [LinearOrder κ] [DecidableEq α] (key : α → κ)

/-- The place of a new element: the index is asked for the last one that is not above it. -/
def place (e : α) (s l : List α) : List α :=
  match (s.takeWhile fun a => decide (key a ≤ key e)).getLast? with
  | none => l ++ [e]
  | some last => if key last = key e then insertAfter last e l else l ++ [e]

/- The first elements of `s` as long as they have the key are removed, there and from `l`. -/
def eraseRun (k : κ) : List α → List α → List α × List α
  | [], l => ([], l)
  | a :: s, l => if key a = k then eraseRun k s (l.erase a) else (a :: s, l)

variable {key} {k : κ} {e : α} {s l : List α}

theorem place_eq_addLast (hs : s.Pairwise (key · ≤ key ·)) (hl : l.Nodup)
    (hclasses : ∀ k, ofKey key k s = ofKey key k l) : place key e s l = addLast key e l := by
  have hmem : ∀ a, a ∈ s ∧ key a = key e ↔ a ∈ l ∧ key a = key e := by
    intro a
    rw [← mem_ofKey, hclasses, mem_ofKey]
  by_cases hnone : ∀ c ∈ l, key c ≠ key e
  · rw [addLast_of_none hnone, place]
    split
    · rfl
    · rename_i last hlast
      have hs' : last ∈ s := (List.takeWhile_sublist _).mem (List.mem_of_getLast? hlast)
      rw [if_neg fun hk => hnone last ((hmem last).mp ⟨hs', hk⟩).1 hk]
  · rw [not_forall] at hnone
    obtain ⟨c, hc⟩ := hnone
    rw [Classical.not_imp, not_not] at hc
    obtain ⟨front, a, hA, ha, hclass⟩ := takeWhile_last hs ((hmem c).mpr hc).1 hc.2
    rw [hclasses] at hclass
    rw [place, hA, List.getLast?_concat]
    dsimp only
    rw [if_pos ha]
    exact insertAfter_eq_addLast hl hclass

theorem eraseRun_eq (hs : s.Pairwise (key · ≤ key ·)) (hk : ∀ a ∈ s, k ≤ key a)
    (hclass : ofKey key k s = ofKey key k l) :
    eraseRun key k s l = (withoutKey key k s, withoutKey key k l) := by
  induction s generalizing l with
  | nil =>
    rw [eraseRun, withoutKey_eq_self (l := l) (ofKey_eq_nil.mp hclass.symm)]
    rfl
  | cons a s ih =>
    obtain ⟨hle, hs⟩ := List.pairwise_cons.mp hs
    obtain ⟨hka, hk⟩ := List.forall_mem_cons.mp hk
    rw [eraseRun]
    split
    · rename_i ha
      rw [ofKey_cons_pos ha] at hclass
      rw [ih hs hk, withoutKey_cons_pos ha, withoutKey_erase ha]
      rw [ofKey_erase, if_pos ha, ← hclass, List.erase_cons_head]
    · rename_i ha
      have hnone : ∀ c ∈ a :: s, key c ≠ k := by
        intro c hc hck
        rcases List.mem_cons.mp hc with rfl | hc
        · exact ha hck
        · exact ha (le_antisymm (hck ▸ hle c hc) hka)
      rw [withoutKey_eq_self hnone, withoutKey_eq_self]
      rw [ofKey_eq_nil.mpr hnone] at hclass
      exact ofKey_eq_nil.mp hclass.symm

end Place

/-! ### The list and its index -/

/-- A list and its index: the elements of a key stand together in the list, and in the index in
the same order. -/
structure Indexed [LinearOrder κ] (key : α → κ) where
  set : List α
  list : List α
  sorted : set.Pairwise (key · ≤ key ·)
  nodup : list.Nodup
  classes : ∀ k, ofKey key k set = ofKey key k list
  grouped : Grouped key list

namespace Indexed
variable [LinearOrder κ] {key : α → κ}

theorem mem_iff (x : Indexed key) (a : α) : a ∈ x.set ↔ a ∈ x.list := by
  have h : a ∈ ofKey key (key a) x.set ↔ a ∈ ofKey key (key a) x.list := by
    rw [x.classes]
  rw [mem_ofKey, mem_ofKey] at h
  exact ⟨fun ha => (h.mp ⟨ha, rfl⟩).1, fun ha => (h.mpr ⟨ha, rfl⟩).1⟩

def empty : Indexed key where
  set := []
  list := []
  sorted := .nil
  nodup := .nil
  classes _ := rfl
  grouped := trivial

/- The elements of a key, as the index has them. -/
def equal (x : Indexed key) (k : κ) : List α :=
  (x.set.dropWhile fun a => decide (key a < k)).takeWhile fun a => decide (key a ≤ k)

def count (x : Indexed key) (k : κ) : ℕ := (x.equal k).length

def find (x : Indexed key) (k : κ) : Option α :=
  match x.set.dropWhile fun a => decide (key a < k) with
  | [] => none
  | a :: _ => if k < key a then none else some a

theorem equal_eq_ofKey (x : Indexed key) (k : κ) : x.equal k = ofKey key k x.list := by
  rw [equal, equal_eq x.sorted, x.classes]

theorem find_eq (x : Indexed key) (k : κ) : x.find k = (ofKey key k x.list).head? := by
  rw [← equal_eq_ofKey, equal, find]
  split
  · rename_i h
    rw [h]
    rfl
  · rename_i a t h
    rw [h]
    split
    · rename_i hk
      rw [List.takeWhile_cons_of_neg (by simpa using hk)]
      rfl
    · rename_i hk
      rw [List.takeWhile_cons_of_pos (by simpa using hk)]
      rfl

theorem count_eq (x : Indexed key) (k : κ) : x.count k = (ofKey key k x.list).length := by
  rw [count, equal_eq_ofKey]

theorem lower_ge (x : Indexed key) (k : κ) :
    ∀ a ∈ x.set.dropWhile fun a => decide (key a < k), k ≤ key a := by
  rw [(lower_eq x.sorted).2]
  exact fun a ha => of_decide_eq_true (List.mem_filter.mp ha).2

theorem lower_ne (x : Indexed key) (k : κ) :
    ∀ a ∈ x.set.takeWhile fun a => decide (key a < k), key a ≠ k :=
  fun _ ha => (of_decide_eq_true
    (List.mem_takeWhile_imp (p := fun a => decide (key a < k)) ha)).ne

theorem ofKey_lower (x : Indexed key) (k : κ) :
    ofKey key k (x.set.dropWhile fun a => decide (key a < k)) = ofKey key k x.list := by
  have hsplit := List.takeWhile_append_dropWhile (p := fun a => decide (key a < k)) (l := x.set)
  rw [← x.classes]
  conv_rhs => rw [← hsplit, ofKey_append, ofKey_eq_nil.mpr (x.lower_ne k), List.nil_append]

variable [DecidableEq α]

/-- From the place of the first element of a key to the place of its last. -/
def range (x : Indexed key) (k : κ) : List α :=
  match (x.equal k).head?, (x.equal k).getLast? with
  | some first, some last => upTo last (x.list.dropWhile fun b => decide (b ≠ first))
  | _, _ => []

/-- The range has the elements of the key and no others. -/
theorem range_eq (x : Indexed key) (k : κ) : x.range k = ofKey key k x.list := by
  unfold range
  rw [equal_eq_ofKey]
  cases h : ofKey key k x.list with
  | nil => rfl
  | cons a t =>
    obtain ⟨front, b, hlast⟩ := (List.eq_nil_or_concat (a :: t)).resolve_left (List.cons_ne_nil a t)
    rw [List.concat_eq_append] at hlast
    have hb : b ∉ front := by
      have hnodup : (front ++ [b]).Nodup := hlast ▸ h ▸ x.nodup.filter _
      exact fun hmem => (List.nodup_append.mp hnodup).2.2 b hmem b List.mem_cons_self rfl
    obtain ⟨rest, hrest⟩ : ∃ rest, x.list.dropWhile (fun b => decide (key b ≠ k)) =
        a :: t ++ rest := h ▸ dropWhile_grouped x.grouped k
    have hgetLast : (a :: t).getLast? = some b := by rw [hlast, List.getLast?_concat]
    rw [hgetLast, List.head?_cons]
    dsimp only
    rw [dropWhile_first h, hrest, hlast, List.append_assoc, List.singleton_append, upTo_append hb]

/-! ### Changes -/

/-- A new element, behind those of its key. -/
def insert (x : Indexed key) (e : α) (he : e ∉ x.list) : Indexed key where
  set := (x.set.takeWhile fun a => decide (key a ≤ key e)) ++
    e :: x.set.dropWhile fun a => decide (key a ≤ key e)
  list := place key e x.set x.list
  sorted := by
    obtain ⟨htake, hdrop⟩ := upper_eq (k := key e) x.sorted
    rw [htake, hdrop]
    refine List.pairwise_append.mpr ⟨x.sorted.filter _, List.pairwise_cons.mpr
      ⟨fun b hb => ?_, x.sorted.filter _⟩, fun a ha b hb => ?_⟩
    · exact (of_decide_eq_true (List.mem_filter.mp hb).2).le
    · have hae : key a ≤ key e := of_decide_eq_true (List.mem_filter.mp ha).2
      rcases List.mem_cons.mp hb with rfl | hb
      · exact hae
      · exact hae.trans (of_decide_eq_true (List.mem_filter.mp hb).2).le
  nodup := by
    rw [place_eq_addLast x.sorted x.nodup x.classes, (addLast_perm e x.list).nodup_iff]
    exact List.nodup_cons.mpr ⟨he, x.nodup⟩
  classes k := by
    have hother : ∀ c ∈ x.set.dropWhile fun a => decide (key a ≤ key e), key c ≠ key e := by
      rw [(upper_eq x.sorted).2]
      exact fun c hc => (of_decide_eq_true (List.mem_filter.mp hc).2).ne'
    rw [place_eq_addLast x.sorted x.nodup x.classes, ofKey_addLast, ofKey_append,
      ofKey_swap hother, ← ofKey_append, ← List.append_assoc, List.takeWhile_append_dropWhile,
      ofKey_append, ofKey_append, x.classes]
  grouped := by
    rw [place_eq_addLast x.sorted x.nodup x.classes]
    exact grouped_addLast x.grouped

/- The elements of a key, taken out of the index and each out of the list. -/
def run (x : Indexed key) (k : κ) : List α × List α :=
  eraseRun key k (x.set.dropWhile fun a => decide (key a < k)) x.list

theorem run_fst (x : Indexed key) (k : κ) :
    x.run k = (withoutKey key k (x.set.dropWhile fun a => decide (key a < k)),
      withoutKey key k x.list) :=
  eraseRun_eq (x.sorted.sublist (List.dropWhile_sublist _)) (x.lower_ge k) (x.ofKey_lower k)

theorem run_eq (x : Indexed key) (k : κ) :
    (x.set.takeWhile fun a => decide (key a < k)) ++ (x.run k).1 = withoutKey key k x.set ∧
      (x.run k).2 = withoutKey key k x.list := by
  have hsplit := List.takeWhile_append_dropWhile (p := fun a => decide (key a < k)) (l := x.set)
  rw [run_fst]
  refine ⟨?_, rfl⟩
  conv_rhs => rw [← hsplit, withoutKey, List.filter_append]
  exact congrArg (· ++ _) (withoutKey_eq_self (x.lower_ne k)).symm

omit [DecidableEq α] in
theorem ofKey_without (x : Indexed key) (k k' : κ) :
    ofKey key k' (withoutKey key k x.set) = ofKey key k' (withoutKey key k x.list) := by
  rw [ofKey_withoutKey, ofKey_withoutKey, x.classes]

/-- Without the elements of a key. -/
def eraseKey (x : Indexed key) (k : κ) : Indexed key where
  set := (x.set.takeWhile fun a => decide (key a < k)) ++ (x.run k).1
  list := (x.run k).2
  sorted := by
    rw [(x.run_eq k).1]
    exact x.sorted.filter _
  nodup := by
    rw [(x.run_eq k).2]
    exact x.nodup.filter _
  classes k' := by
    rw [(x.run_eq k).1, (x.run_eq k).2, x.ofKey_without]
  grouped := by
    rw [(x.run_eq k).2]
    exact grouped_withoutKey x.grouped

/-- A new element in the place of those of its key, but at the end of the list. -/
def replace (x : Indexed key) (e : α) (he : e ∉ x.list) : Indexed key where
  set := (x.set.takeWhile fun a => decide (key a < key e)) ++ e :: (x.run (key e)).1
  list := (x.run (key e)).2 ++ [e]
  sorted := by
    have hrun : ∀ b ∈ (x.run (key e)).1, key e ≤ key b := by
      rw [run_fst]
      exact fun b hb => x.lower_ge (key e) b (mem_withoutKey.mp hb).1
    have hsorted := x.sorted.filter fun a => decide (key a ≠ key e)
    rw [← withoutKey, ← (x.run_eq (key e)).1] at hsorted
    obtain ⟨htake, hrest, hcross⟩ := List.pairwise_append.mp hsorted
    refine List.pairwise_append.mpr ⟨htake, List.pairwise_cons.mpr ⟨hrun, hrest⟩, ?_⟩
    intro a ha b hb
    rcases List.mem_cons.mp hb with rfl | hb
    · exact (of_decide_eq_true
        (List.mem_takeWhile_imp (p := fun a => decide (key a < key b)) ha)).le
    · exact hcross a ha b hb
  nodup := by
    rw [(x.run_eq (key e)).2]
    refine List.nodup_append.mpr ⟨x.nodup.filter _, List.nodup_singleton e, ?_⟩
    intro a ha b hb hab
    rw [List.mem_singleton.mp hb] at hab
    exact he (hab ▸ (mem_withoutKey.mp ha).1)
  classes k' := by
    have hother : ∀ c ∈ (x.run (key e)).1, key c ≠ key e := by
      rw [run_fst]
      exact fun c hc => (mem_withoutKey.mp hc).2
    rw [ofKey_append, ofKey_swap hother, ← ofKey_append, ← List.append_assoc,
      (x.run_eq (key e)).1, (x.run_eq (key e)).2, ofKey_append, ofKey_append, x.ofKey_without]
  grouped := by
    have hnone : ∀ c ∈ withoutKey key (key e) x.list, key c ≠ key e :=
      fun c hc => (mem_withoutKey.mp hc).2
    rw [(x.run_eq (key e)).2, ← addLast_of_none hnone]
    exact grouped_addLast (grouped_withoutKey x.grouped)

/- Without one of the elements. -/
def erase (x : Indexed key) (a : α) : Indexed key where
  set := x.set.erase a
  list := x.list.erase a
  sorted := x.sorted.sublist List.erase_sublist
  nodup := x.nodup.erase a
  classes k := by
    rw [ofKey_erase, ofKey_erase, x.classes]
  grouped := grouped_erase a x.grouped

/-! ### What the list becomes -/

theorem insert_list (x : Indexed key) (e : α) (he : e ∉ x.list) :
    (x.insert e he).list = addLast key e x.list :=
  place_eq_addLast x.sorted x.nodup x.classes

theorem eraseKey_list (x : Indexed key) (k : κ) :
    (x.eraseKey k).list = withoutKey key k x.list := (x.run_eq k).2

theorem replace_list (x : Indexed key) (e : α) (he : e ∉ x.list) :
    (x.replace e he).list = withoutKey key (key e) x.list ++ [e] :=
  congrArg (· ++ [e]) (x.run_eq (key e)).2

end Indexed

end IndexedList
