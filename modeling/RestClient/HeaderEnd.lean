import RestClient.Lib.Occurrence
import RestClient.ResponseGrammar

/-!
# Where the header ends

`find_eom` looks at every fourth byte where it can and finds the first CRLFCRLF. Where the
fields of a header are read to their end, that is the end of the first CRLFCRLF, counted
from the end of the line before; and while it is not there they cannot be read to their end.
-/

namespace RestClient.ResponseParser
open Scanning Occurrence

def eom : Str := "\r\n\r\n".toList

theorem later_of_first {a : Char} {b : Str} (h : a ≠ '\r') :
    endOfFirst eom (a :: b) = (endOfFirst eom b).map (· + 1) :=
  endOfFirst_later fun hp => h (List.cons_prefix_cons.mp hp).1.symm

theorem later_of_second {a b : Char} {s : Str} (h : b ≠ '\n') :
    endOfFirst eom (a :: b :: s) = (endOfFirst eom (b :: s)).map (· + 1) :=
  endOfFirst_later fun hp =>
    h (List.cons_prefix_cons.mp (List.cons_prefix_cons.mp hp).2).1.symm

theorem later_of_third {a b c : Char} {s : Str} (h : c ≠ '\r') :
    endOfFirst eom (a :: b :: c :: s) = (endOfFirst eom (b :: c :: s)).map (· + 1) :=
  endOfFirst_later fun hp => h
    (List.cons_prefix_cons.mp (List.cons_prefix_cons.mp (List.cons_prefix_cons.mp hp).2).2).1.symm

theorem later_of_fourth {a b c d : Char} {s : Str} (h : d ≠ '\n') :
    endOfFirst eom (a :: b :: c :: d :: s) = (endOfFirst eom (b :: c :: d :: s)).map (· + 1) :=
  endOfFirst_later fun hp => h (List.cons_prefix_cons.mp (List.cons_prefix_cons.mp
    (List.cons_prefix_cons.mp (List.cons_prefix_cons.mp hp).2).2).2).1.symm

theorem findEom_eq (b : Str) : findEom b = endOfFirst eom b := by
  fun_induction findEom b with
  | case1 a b c rest hne ih =>
    rw [later_of_fourth hne, ih]
  | case2 a b c d rest hne hd ih => 
    rw [later_of_fourth hne, later_of_third hd, later_of_second hne, later_of_first hd, ih]
    simp only [Option.map_map]
    rfl
  | case3 a b c d rest hd hc ih =>
    have hlf : d ≠ '\r' := by
      rw [not_not.mp hd]
      decide
    rw [later_of_third hc, later_of_third hlf, later_of_first hc, later_of_first hlf, ih]
    simp only [Option.map_map]
    rfl
  | case4 a b c d rest hd hc hb ih =>
    have hcr : c ≠ '\n' := by
      rw [not_not.mp hc]
      decide
    rw [later_of_second hb, later_of_second hcr, ih]
    simp only [Option.map_map]
    rfl
  | case5 a b c d rest hd hc hb ha ih =>
    have hlf : b ≠ '\r' := by
      rw [not_not.mp hb]
      decide
    rw [later_of_first ha, later_of_first hlf, ih]
    simp only [Option.map_map]
    rfl
  | case6 a b c d rest hd hc hb ha =>
    rw [not_not.mp ha, not_not.mp hb, not_not.mp hc, not_not.mp hd]
    exact (endOfFirst_here (List.prefix_append eom rest)).symm
  | case7 b h =>
    cases hb : endOfFirst eom b with
    | none => rfl
    | some k =>
      have hlen : eom.length ≤ b.length := (endOfFirst_bounds hb).1.trans (endOfFirst_bounds hb).2
      match b, h, hlen with
      | a :: b :: c :: d :: rest, h, _ => exact absurd rfl (h a b c d rest)
/-! ### Lines -/

theorem findEom_text {t : Str} (ht : '\r' ∉ t) (b : Str) :
    findEom (t ++ b) = (findEom b).map (· + t.length) := by
  rw [findEom_eq, findEom_eq]
  exact endOfFirst_text ht b

theorem findEom_none_of_text {t : Str} (ht : '\r' ∉ t) : findEom t = none := by
  have h := findEom_text ht []
  rwa [List.append_nil] at h

theorem findEom_crlf {c : Char} (hc : c ≠ '\r') (b : Str) :
    findEom ('\r' :: '\n' :: c :: b) = (findEom (c :: b)).map (· + 2) := by
  have hlf : '\n' ≠ '\r' := by decide
  rw [findEom_eq, findEom_eq, later_of_third hc, later_of_first hlf, Option.map_map]
  rfl

theorem findEom_end (b : Str) : findEom ('\r' :: '\n' :: '\r' :: '\n' :: b) = some 4 := rfl

/-- One or more lines have been consumed, and none of them was empty. -/
def LinesBefore (b rest : Str) : Prop :=
  ∃ n, b.length = n + 2 + rest.length ∧
    findEom b = (findEom ('\r' :: '\n' :: rest)).map (· + n)

theorem linesBefore_crlf (rest : Str) : LinesBefore ('\r' :: '\n' :: rest) rest := by
  refine ⟨0, ?_, Option.map_id_apply.symm⟩
  rw [List.length_cons, List.length_cons]
  omega

theorem LinesBefore.text {t b rest : Str} (ht : '\r' ∉ t) (h : LinesBefore b rest) :
    LinesBefore (t ++ b) rest := by
  obtain ⟨n, hlen, heom⟩ := h
  refine ⟨t.length + n, ?_, ?_⟩
  · rw [List.length_append, hlen]
    omega
  · rw [findEom_text ht, heom, Option.map_map]
    congr 1
    funext k
    exact (Nat.add_assoc k n t.length).trans (by rw [Nat.add_comm n])

theorem LinesBefore.next {c : Char} {b rest : Str} (hc : c ≠ '\r') (h : LinesBefore (c :: b) rest) :
    LinesBefore ('\r' :: '\n' :: c :: b) rest := by
  obtain ⟨n, hlen, heom⟩ := h
  refine ⟨n + 2, ?_, ?_⟩
  · rw [List.length_cons, List.length_cons, hlen]
    omega
  · rw [findEom_crlf hc, heom, Option.map_map]
    rfl

theorem not_cr_of_kept {keep : Char → Bool} (hcr : keep '\r' = false) {t : Str}
    (ht : ∀ c ∈ t, keep c = true) : '\r' ∉ t := fun h =>
  absurd ((ht _ h).symm.trans hcr) (by decide)

theorem parseTokenToEol_eq_done {invalid : HttpError} {b text rest : Str}
    (h : parseTokenToEol invalid b = .done text rest) :
    b = text ++ '\r' :: '\n' :: rest ∧ '\r' ∉ text := by
  obtain ⟨w, b1, hspan, h1⟩ := andThen_eq_done h
  obtain ⟨c, b2, hitem, h2⟩ := andThen_eq_done h1
  obtain ⟨_, b3, hcr, h3⟩ := andThen_eq_done h2
  obtain ⟨d, b4, hitem', h4⟩ := andThen_eq_done h3
  obtain ⟨_, b5, hlf, h5⟩ := andThen_eq_done h4
  obtain ⟨hc, rfl⟩ := require_eq_done hcr
  obtain ⟨hd, rfl⟩ := require_eq_done hlf
  obtain ⟨rfl, hkept, -⟩ := span_eq_done hspan
  cases h5
  rw [item_eq_done hitem, item_eq_done hitem', beq_iff_eq.mp hc, beq_iff_eq.mp hd]
  exact ⟨rfl, not_cr_of_kept (by decide) hkept⟩

theorem parseTokenToEol_eq_more {invalid : HttpError} {b : Str}
    (h : parseTokenToEol invalid b = .more) : findEom b = none := by
  rcases andThen_eq_more h with hspan | ⟨w, b1, hspan, h1⟩
  · exact findEom_none_of_text (not_cr_of_kept (by decide) (span_eq_more hspan))
  obtain ⟨hb, hkept, d, tail, rfl, -⟩ := span_eq_done hspan
  rw [hb, findEom_text (not_cr_of_kept (by decide) hkept)]
  rcases andThen_eq_more h1 with hitem | ⟨c, b2, hitem, h2⟩
  · cases hitem
  rcases andThen_eq_more h2 with hcr | ⟨_, b3, hcr, h3⟩
  · exact absurd hcr require_ne_more
  obtain ⟨-, rfl⟩ := require_eq_done hcr
  rcases andThen_eq_more h3 with hitem' | ⟨d', b4, hitem', h4⟩
  · -- one symbol is left, too few for the end of the header
    rw [item_eq_done hitem, item_eq_more hitem']
    rfl
  rcases andThen_eq_more h4 with hlf | ⟨_, b5, hlf, h5⟩
  · exact absurd hlf require_ne_more
  · cases h5

/- What follows a line of a value is there, a blank if the next line continues it. -/
theorem foldedLine_eq_done {b rest : Str} {r : Str × Bool} (h : foldedLine b = .done r rest) :
    ∃ line c y, '\r' ∉ line ∧ b = line ++ '\r' :: '\n' :: c :: y ∧ isBlank c = r.2 ∧
      rest = if r.2 then y else c :: y := by
  obtain ⟨blanks, b1, hspan, h1⟩ := andThen_eq_done h
  obtain ⟨text, b2, htext, h2⟩ := andThen_eq_done h1
  obtain ⟨c, b3, hpeek, h3⟩ := andThen_eq_done h2
  obtain ⟨rfl, hkept, -⟩ := span_eq_done hspan
  obtain ⟨rfl, hnot⟩ := parseTokenToEol_eq_done htext
  obtain ⟨rfl, y, rfl⟩ := peek_eq_done hpeek
  have hline : '\r' ∉ blanks ++ text := by
    rw [List.mem_append]
    exact not_or.mpr ⟨not_cr_of_kept (by decide) hkept, hnot⟩
  refine ⟨blanks ++ text, c, y, hline, by rw [List.append_assoc], ?_⟩
  split at h3
  · obtain ⟨d, b4, hitem, h4⟩ := andThen_eq_done h3
    cases hitem
    cases h4
    exact ⟨by assumption, rfl⟩
  · cases h3
    exact ⟨eq_false_of_ne_true (by assumption), rfl⟩

theorem foldedLine_eq_more {b : Str} (h : foldedLine b = .more) : findEom b = none := by
  rcases andThen_eq_more h with hspan | ⟨blanks, b1, hspan, h1⟩
  · exact findEom_none_of_text (not_cr_of_kept (by decide) (span_eq_more hspan))
  obtain ⟨rfl, hkept, -⟩ := span_eq_done hspan
  rw [findEom_text (not_cr_of_kept (by decide) hkept)]
  rcases andThen_eq_more h1 with htext | ⟨text, b2, htext, h2⟩
  · rw [parseTokenToEol_eq_more htext]
    rfl
  obtain ⟨rfl, hnot⟩ := parseTokenToEol_eq_done htext
  rw [findEom_text hnot]
  rcases andThen_eq_more h2 with hpeek | ⟨c, b3, hpeek, h3⟩
  · rw [peek_eq_more hpeek]
    rfl
  obtain ⟨rfl, y, rfl⟩ := peek_eq_done hpeek
  split at h3
  · rcases andThen_eq_more h3 with hitem | ⟨d, b4, -, h4⟩
    · cases hitem
    · cases h4
  · cases h3

theorem tryAppend_ne_more {buf s b : Str} : tryAppend buf s b ≠ .more := by
  unfold tryAppend
  split <;> exact nofun

theorem tryAppend_eq_done {buf s b rest buf' : Str} (h : tryAppend buf s b = .done buf' rest) :
    rest = b := by
  unfold tryAppend at h
  split at h
  · cases h
    rfl
  · cases h

/- The line that `valueLine` reads, and whether it goes on. -/
theorem valueLine_eq_done {buf b rest : Str} {r : Str ⊕ Str} (h : valueLine buf b = .done r rest) :
    ∃ text, foldedLine b = .done (text, r.isLeft) rest := by
  obtain ⟨⟨text, fold⟩, mid, hline, h1⟩ := andThen_eq_done h
  refine ⟨text, ?_⟩
  dsimp only at h1
  split at h1
  · cases fold with
    | true =>
      obtain ⟨buf', mid', happ, h2⟩ := andThen_eq_done h1
      rw [tryAppend_eq_done happ] at h2
      cases h2
      exact hline
    | false =>
      cases h1
      exact hline
  · obtain ⟨buf', mid', happ, h2⟩ := andThen_eq_done h1
    have hmid : mid' = mid := by
      split at happ
      · cases happ
        rfl
      · exact tryAppend_eq_done happ
    cases h2
    rw [hline, hmid]
    cases fold <;> rfl

theorem valueLine_eq_more {buf b : Str} (h : valueLine buf b = .more) : findEom b = none := by
  rcases andThen_eq_more h with hline | ⟨⟨text, fold⟩, mid, -, h⟩
  · exact foldedLine_eq_more hline
  · exfalso
    dsimp only at h
    split at h
    · split at h
      · rcases andThen_eq_more h with happ | ⟨buf', mid', -, h⟩
        · exact tryAppend_ne_more happ
        · cases h
      · cases h
    · rcases andThen_eq_more h with happ | ⟨buf', mid', -, h⟩
      · split at happ
        · cases happ
        · exact tryAppend_ne_more happ
      · cases h

theorem not_cr_of_blank {c : Char} (h : isBlank c = true) : c ≠ '\r' := by
  rintro rfl
  exact absurd h (by decide)

/- Induction on the bytes; a line that continues the one before begins with a blank. -/
theorem value_lines {buf b value rest : Str} (h : repeated valueLine buf b = .done value rest) :
    LinesBefore b rest ∧ rest ≠ [] := by
  induction hn : b.length using Nat.strong_induction_on generalizing buf b with
  | _ n ih =>
    rcases repeated_eq_done consumes_valueLine h with hstop | ⟨buf', mid, hagain, hmid⟩
    · obtain ⟨text, hline⟩ := valueLine_eq_done hstop
      obtain ⟨line, c, y, hnot, rfl, -, rfl⟩ := foldedLine_eq_done hline
      exact ⟨(linesBefore_crlf (c :: y)).text hnot, List.cons_ne_nil c y⟩
    · obtain ⟨text, hline⟩ := valueLine_eq_done hagain
      obtain ⟨line, c, y, hnot, rfl, hblank, rfl⟩ := foldedLine_eq_done hline
      have hless := consumes_valueLine _ _ _ _ hagain
      obtain ⟨hrest, hne⟩ := ih _ (hn ▸ hless) hmid rfl
      have hc := not_cr_of_blank hblank
      have hfirst : LinesBefore (c :: mid) rest :=
        LinesBefore.text (t := [c]) (fun hmem => hc (List.mem_singleton.mp hmem).symm) hrest
      exact ⟨(hfirst.next hc).text hnot, hne⟩

theorem value_eq_more {buf b : Str} (h : repeated valueLine buf b = .more) : findEom b = none := by
  induction hn : b.length using Nat.strong_induction_on generalizing buf b with
  | _ n ih =>
    rcases repeated_eq_more consumes_valueLine h with hmore | ⟨buf', mid, hagain, hmid⟩
    · exact valueLine_eq_more hmore
    · obtain ⟨text, hline⟩ := valueLine_eq_done hagain
      obtain ⟨line, c, y, hnot, rfl, hblank, rfl⟩ := foldedLine_eq_done hline
      have hless := consumes_valueLine _ _ _ _ hagain
      have hc := not_cr_of_blank hblank
      have hrest : findEom mid = none := ih _ (hn ▸ hless) hmid rfl
      have hline : findEom (c :: mid) = none := by
        rw [findEom_eq, later_of_first hc, ← findEom_eq, hrest]
        rfl
      rw [findEom_text hnot, findEom_crlf hc, hline]
      rfl

/-! ### Fields -/

/- The name of a field and its colon hold no end of a line. -/
theorem not_cr_of_name {name : Str} (h : ∀ c ∈ name, isTokenChar c = true) :
    '\r' ∉ name ++ [':'] := by
  rw [List.mem_append, List.mem_singleton]
  exact not_or.mpr ⟨not_cr_of_kept (by decide) h, by decide⟩

theorem parseField_lines {b rest : Str} {f : Str × Str} (h : parseField b = .done f rest) :
    LinesBefore b rest ∧ rest ≠ [] := by
  obtain ⟨name, b1, hspan, h1⟩ := andThen_eq_done h
  obtain ⟨c, b2, hitem, h2⟩ := andThen_eq_done h1
  obtain ⟨_, b3, hcolon, h3⟩ := andThen_eq_done h2
  obtain ⟨value, b4, hvalue, h4⟩ := andThen_eq_done h3
  obtain ⟨hc, rfl⟩ := require_eq_done hcolon
  obtain ⟨rfl, hkept, -⟩ := span_eq_done hspan
  cases h4
  obtain ⟨hlines, hne⟩ := value_lines hvalue
  rw [item_eq_done hitem, beq_iff_eq.mp (Bool.and_eq_true_iff.mp hc).1, List.append_cons]
  exact ⟨hlines.text (not_cr_of_name hkept), hne⟩

theorem parseField_eq_more {b : Str} (h : parseField b = .more) : findEom b = none := by
  rcases andThen_eq_more h with hspan | ⟨name, b1, hspan, h1⟩
  · exact findEom_none_of_text (not_cr_of_kept (by decide) (span_eq_more hspan))
  obtain ⟨rfl, hkept, d, tail, rfl, -⟩ := span_eq_done hspan
  rcases andThen_eq_more h1 with hitem | ⟨c, b2, hitem, h2⟩
  · cases hitem
  rcases andThen_eq_more h2 with hcolon | ⟨_, b3, hcolon, h3⟩
  · exact absurd hcolon require_ne_more
  obtain ⟨hc, rfl⟩ := require_eq_done hcolon
  rcases andThen_eq_more h3 with hvalue | ⟨value, b4, -, h4⟩
  · rw [item_eq_done hitem, beq_iff_eq.mp (Bool.and_eq_true_iff.mp hc).1, List.append_cons,
      findEom_text (not_cr_of_name hkept), value_eq_more hvalue]
    rfl
  · cases h4

/- Either a field has been read, or the empty line. -/
theorem fieldStep_eq_done {σ : Parsed} {b rest : Str} {r : Parsed ⊕ Parsed}
    (h : fieldStep σ b = .done r rest) :
    (r = .inr σ ∧ b = '\r' :: '\n' :: rest) ∨
      ∃ σ' c y, r = .inl σ' ∧ b = c :: y ∧ c ≠ '\r' ∧ LinesBefore b rest := by
  obtain ⟨-, h⟩ := atLeast_eq_done h
  obtain ⟨c, b1, hpeek, h1⟩ := andThen_eq_done h
  obtain ⟨rfl, y, rfl⟩ := peek_eq_done hpeek
  split at h1
  · rename_i hc
    obtain ⟨_, b2, hitem, h2⟩ := andThen_eq_done h1
    obtain ⟨d, b3, hitem', h3⟩ := andThen_eq_done h2
    obtain ⟨_, b4, hlf, h4⟩ := andThen_eq_done h3
    obtain ⟨hd, rfl⟩ := require_eq_done hlf
    cases hitem
    cases h4
    rw [hc, item_eq_done hitem', beq_iff_eq.mp hd]
    exact .inl ⟨rfl, rfl⟩
  · rename_i hc
    obtain ⟨f, b2, hfield, h2⟩ := andThen_eq_done h1
    obtain ⟨σ', b3, hdo, h3⟩ := andThen_eq_done h2
    obtain ⟨σ'', b4, hon, h4⟩ := andThen_eq_done h3
    obtain ⟨-, rfl⟩ := lift_eq_done hdo
    obtain ⟨-, rfl⟩ := lift_eq_done hon
    cases h4
    exact .inr ⟨σ'', c, y, rfl, rfl, hc, (parseField_lines hfield).1⟩

theorem fieldStep_eq_more {σ : Parsed} {b : Str} (h : fieldStep σ b = .more) :
    findEom ('\r' :: '\n' :: b) = none := by
  unfold fieldStep atLeast at h
  split at h
  · rcases andThen_eq_more h with hpeek | ⟨c, b1, hpeek, h1⟩
    · rw [peek_eq_more hpeek]
      rfl
    obtain ⟨rfl, y, rfl⟩ := peek_eq_done hpeek
    split at h1
    · rename_i hlen hc
      rcases andThen_eq_more h1 with hitem | ⟨_, b2, hitem, h2⟩
      · cases hitem
      rcases andThen_eq_more h2 with hitem' | ⟨d, b3, -, h3⟩
      · cases hitem
        rw [item_eq_more hitem'] at hlen
        exact absurd hlen (Nat.lt_irrefl 1)
      rcases andThen_eq_more h3 with hlf | ⟨_, b4, -, h4⟩
      · exact absurd hlf require_ne_more
      · cases h4
    · rename_i hc
      rcases andThen_eq_more h1 with hfield | ⟨f, b2, -, h2⟩
      · rw [findEom_crlf hc, parseField_eq_more hfield]
        rfl
      rcases andThen_eq_more h2 with hdo | ⟨σ', b3, -, h3⟩
      · exact absurd hdo lift_ne_more
      rcases andThen_eq_more h3 with hon | ⟨σ'', b4, -, h4⟩
      · exact absurd hon lift_ne_more
      · cases h4
  · rename_i hlen
    match b, hlen with
    | [], _ => rfl
    | [c], _ => rfl
    | c :: d :: b, hlen => exact absurd (Nat.le_add_left 2 b.length) hlen

/-- The fields end with the first empty line. -/
theorem scanFields_end {σ σ' : Parsed} {b rest : Str} (h : scanFields σ b = .done σ' rest) :
    ∃ n, b.length = n + rest.length ∧ findEom ('\r' :: '\n' :: b) = some (n + 2) := by
  induction hn : b.length using Nat.strong_induction_on generalizing σ b with
  | _ n ih =>
    subst hn
    rcases repeated_eq_done consumes_fieldStep h with hstop | ⟨σ'', mid, hagain, hmid⟩
    · rcases fieldStep_eq_done hstop with ⟨-, rfl⟩ | ⟨σ'', c, y, hr, -⟩
      · refine ⟨2, ?_, findEom_end rest⟩
        rw [List.length_cons, List.length_cons]
        omega
      · cases hr
    · rcases fieldStep_eq_done hagain with ⟨hr, -⟩ | ⟨σ₁, c, y, -, rfl, hc, hlines⟩
      · cases hr
      · obtain ⟨k, hlen, heom⟩ := hlines
        obtain ⟨j, hlen', heom'⟩ := ih _ (consumes_fieldStep _ _ _ _ hagain) hmid rfl
        refine ⟨k + 2 + j, by omega, ?_⟩
        rw [findEom_crlf hc, heom, heom', Option.map_some, Option.map_some]
        congr 1
        omega

theorem scanFields_eq_more {σ : Parsed} {b : Str} (h : scanFields σ b = .more) :
    findEom ('\r' :: '\n' :: b) = none := by
  induction hn : b.length using Nat.strong_induction_on generalizing σ b with
  | _ n ih =>
    subst hn
    rcases repeated_eq_more consumes_fieldStep h with hmore | ⟨σ'', mid, hagain, hmid⟩
    · exact fieldStep_eq_more hmore
    · rcases fieldStep_eq_done hagain with ⟨hr, -⟩ | ⟨σ₁, c, y, -, rfl, hc, hlines⟩
      · cases hr
      · obtain ⟨k, -, heom⟩ := hlines
        rw [findEom_crlf hc, heom, ih _ (consumes_fieldStep _ _ _ _ hagain) hmid rfl]
        rfl

/-! ### The start line -/

theorem not_cr_of_digit {c : Char} (h : c.isDigit = true) : c ≠ '\r' := by
  rintro rfl
  exact absurd h (by decide)

theorem parseVersion_eq_done {b rest : Str} {v : ℕ} (h : parseVersion b = .done v rest) :
    ∃ w, b = w ++ rest ∧ '\r' ∉ w := by
  obtain ⟨w, mid, hw, h1⟩ := andThen_eq_done h
  obtain ⟨rfl, -⟩ := exactly_eq_done hw
  split at h1
  · rename_i major minor
    split at h1
    · rename_i hdigits
      cases h1
      obtain ⟨hmajor, hminor⟩ := Bool.and_eq_true_iff.mp hdigits
      refine ⟨_, rfl, ?_⟩
      simp [(not_cr_of_digit hmajor).symm, (not_cr_of_digit hminor).symm]
    · cases h1
  · cases h1

theorem parseStatus_eq_done {b rest : Str} {v : ℕ} (h : parseStatus b = .done v rest) :
    ∃ w, b = w ++ rest ∧ '\r' ∉ w := by
  obtain ⟨w, mid, hw, h1⟩ := andThen_eq_done h
  obtain ⟨rfl, -⟩ := exactly_eq_done hw
  split at h1
  · rename_i a b c
    split at h1
    · rename_i hdigits
      cases h1
      obtain ⟨hab, hc⟩ := Bool.and_eq_true_iff.mp hdigits
      obtain ⟨ha, hb⟩ := Bool.and_eq_true_iff.mp hab
      refine ⟨_, rfl, ?_⟩
      simp [(not_cr_of_digit ha).symm, (not_cr_of_digit hb).symm, (not_cr_of_digit hc).symm]
    · cases h1
  · cases h1

theorem parseStartLine_eq_done {σ σ' : Parsed} {b rest : Str}
    (h : parseStartLine σ b = .done σ' rest) : LinesBefore b rest ∧
      σ' = { σ with state := .fields, m := σ'.m } := by
  obtain ⟨version, b1, hversion, h1⟩ := andThen_eq_done h
  obtain ⟨_, b2, hrange, h2⟩ := andThen_eq_done h1
  obtain ⟨c, b3, hitem, h3⟩ := andThen_eq_done h2
  obtain ⟨_, b4, hblank, h4⟩ := andThen_eq_done h3
  obtain ⟨status, b5, hstatus, h5⟩ := andThen_eq_done h4
  obtain ⟨reason, b6, hreason, h6⟩ := andThen_eq_done h5
  obtain ⟨-, rfl⟩ := require_eq_done hrange
  obtain ⟨hc, rfl⟩ := require_eq_done hblank
  obtain ⟨w, rfl, hw⟩ := parseVersion_eq_done hversion
  obtain ⟨w', rfl, hw'⟩ := parseStatus_eq_done hstatus
  obtain ⟨rfl, hw''⟩ := parseTokenToEol_eq_done hreason
  cases h6
  have hspace : '\r' ∉ [c] := by
    rw [beq_iff_eq.mp hc]
    decide
  refine ⟨?_, rfl⟩
  rw [item_eq_done hitem]
  exact .text hw (.text (t := [c]) hspace (.text hw' (.text hw'' (linesBefore_crlf _))))

/-- The header ends with the first CRLFCRLF. -/
theorem scanHeader_end {σ σ' : Parsed} {b rest : Str} (hσ : σ.state = .startLine)
    (h : scanHeader σ b = .done σ' rest) :
    ∃ n, b.length = n + rest.length ∧ findEom b = some n := by
  rw [scanHeader, hσ] at h
  obtain ⟨σ'', mid, hline, hfields⟩ := andThen_eq_done h
  obtain ⟨⟨n, hlen, heom⟩, -⟩ := parseStartLine_eq_done hline
  obtain ⟨k, hlen', heom'⟩ := scanFields_end hfields
  refine ⟨n + 2 + k, by omega, ?_⟩
  rw [heom, heom', Option.map_some]
  congr 1
  omega

end RestClient.ResponseParser
