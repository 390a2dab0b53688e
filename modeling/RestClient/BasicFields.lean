import Mathlib.Data.List.InsertIdx
import Mathlib.Data.List.Lex
import Mathlib.Data.Prod.Lex
import RestClient.Framing
import RestClient.Lib.IndexedList
import RestClient.Session

/-!
# The fields of a message

`basic_fields` (http/fields.hpp, http/impl/fields.hpp): elements that are linked into a multiset
by their names and into a list in the order in which they are written. A lookup walks the
multiset. What the client and the parser know of it is the list: a field that is inserted goes
behind the last one of its name, and one that is set removes them and goes to the end.
-/

namespace RestClient
open ResponseParser IndexedList

/-! ### Elements -/

/- An allocated element: `serial` stands for its address. -/
structure Element where
  serial : ℕ
  name : Str
  value : Str
  deriving DecidableEq, Repr

/- A byte as a signed char: what is not ASCII comes first. -/
def signedChar (c : Char) : ℤ := if c.toNat < 0x80 then c.toNat else c.toNat - 0x110000

/- `key_compare`: shorter names first, then `iless`. -/
def nameKey (name : Str) : ℕ ×ₗ List ℤ :=
  toLex (name.length, name.map fun c => signedChar c.toLower)

abbrev elementKey (e : Element) : ℕ ×ₗ List ℤ := nameKey e.name

/- What a 16-bit offset can hold. -/
def offMax : ℕ := 2 ^ 16 - 1

/-- The container: no element is linked twice, and all are as `new_element` makes them. -/
structure BasicFields where
  elements : Indexed elementKey
  next : ℕ
  older : ∀ e ∈ elements.list, e.serial < next
  made : ∀ e ∈ elements.list, e.name.length + 2 ≤ offMax ∧ e.value.length + 2 ≤ offMax ∧
    trim e.value = e.value

theorem signedChar_injective : Function.Injective signedChar := by
  intro c d h
  have hc : c.toNat < 0xd800 ∨ 0xdfff < c.toNat ∧ c.toNat < 0x110000 := c.valid
  have hd : d.toNat < 0xd800 ∨ 0xdfff < d.toNat ∧ d.toNat < 0x110000 := d.valid
  refine Char.toNat_inj.mp ?_
  unfold signedChar at h
  split at h <;> split at h <;> omega

theorem nameKey_eq_iff (a b : Str) : nameKey a = nameKey b ↔ iequals a b = true := by
  have hkey : nameKey a = nameKey b ↔
      a.length = b.length ∧
        (a.map Char.toLower).map signedChar = (b.map Char.toLower).map signedChar := by
    rw [List.map_map, List.map_map]
    exact Prod.ext_iff
  rw [hkey, iequals, beq_iff_eq, List.map_inj_right fun _ _ h => signedChar_injective h]
  refine ⟨fun h => h.2, fun h => ⟨?_, h⟩⟩
  have hlen := congrArg List.length h
  rwa [List.length_map, List.length_map] at hlen

theorem trimmed_trim (s : Str) : Trimmed (trim s) := trimmed_trimBack (dropWhile_front s)

theorem trim_length (s : Str) : (trim s).length ≤ s.length :=
  (List.rdropWhile_prefix isBlank _).length_le.trans (List.dropWhile_suffix _).length_le

namespace BasicFields

/-! ### Operations -/

def empty : BasicFields where
  elements := .empty
  next := 0
  older := nofun
  made := nofun

/- An element that `new_element` has made for the container. -/
def New (b : BasicFields) (e : Element) : Prop :=
  e.serial = b.next ∧ e.name.length + 2 ≤ offMax ∧ e.value.length + 2 ≤ offMax ∧
    trim e.value = e.value

theorem New.not_mem {b : BasicFields} {e : Element} (h : b.New e) : e ∉ b.elements.list := by
  intro hmem
  have hlt := b.older e hmem
  rw [h.1] at hlt
  exact Nat.lt_irrefl _ hlt

def newElement (b : BasicFields) (name value : Str) : Except String { e : Element // b.New e } :=
  if hname : offMax < name.length + 2 then .error "field name too large"
  else if hvalue : offMax < value.length + 2 then .error "field value too large"
  else .ok ⟨⟨b.next, name, trim value⟩, rfl, Nat.le_of_not_lt hname,
    (Nat.add_le_add_right (trim_length value) 2).trans (Nat.le_of_not_lt hvalue),
    trim_of_trimmed (trimmed_trim value)⟩

/- The elements that were there, and one that has been made for it. -/
def withNew (b : BasicFields) (e : Element) (he : b.New e) (elements : Indexed elementKey)
    (h : ∀ a ∈ elements.list, a = e ∨ a ∈ b.elements.list) : BasicFields where
  elements := elements
  next := b.next + 1
  older a ha := by
    obtain rfl | ha := h a ha
    · rw [he.1]
      exact Nat.lt_succ_self b.next
    · exact Nat.lt_succ_of_lt (b.older a ha)
  made a ha := by
    obtain rfl | ha := h a ha
    · exact he.2
    · exact b.made a ha

/- Some of the elements that were there. -/
def withOld (b : BasicFields) (elements : Indexed elementKey)
    (h : ∀ a ∈ elements.list, a ∈ b.elements.list) : BasicFields where
  elements := elements
  next := b.next
  older a ha := b.older a (h a ha)
  made a ha := b.made a (h a ha)

def insertElement (b : BasicFields) (e : Element) (he : b.New e) : BasicFields :=
  b.withNew e he (b.elements.insert e he.not_mem) fun a ha => by
    rw [Indexed.insert_list] at ha
    exact List.mem_cons.mp ((addLast_perm e _).mem_iff.mp ha)

def setElement (b : BasicFields) (e : Element) (he : b.New e) : BasicFields :=
  b.withNew e he (b.elements.replace e he.not_mem) fun a ha => by
    rw [Indexed.replace_list] at ha
    rcases List.mem_append.mp ha with ha | ha
    · exact .inr (mem_withoutKey.mp ha).1
    · exact .inl (List.mem_singleton.mp ha)

def insert (b : BasicFields) (name value : Str) : Except String BasicFields :=
  (b.newElement name value).map fun e => b.insertElement e.1 e.2

def set (b : BasicFields) (name value : Str) : Except String BasicFields :=
  (b.newElement name value).map fun e => b.setElement e.1 e.2

/- `erase(name)`: the fields of the name, and how many they were. -/
def erase (b : BasicFields) (name : Str) : ℕ × BasicFields :=
  (b.elements.count (nameKey name),
    b.withOld (b.elements.eraseKey (nameKey name)) fun a ha => by
      rw [Indexed.eraseKey_list] at ha
      exact (mem_withoutKey.mp ha).1)

/- `erase(pos)`. -/
def eraseAt (b : BasicFields) (pos : ℕ) : BasicFields :=
  match b.elements.list[pos]? with
  | none => b
  | some e => b.withOld (b.elements.erase e) fun _ ha => List.mem_of_mem_erase ha

def clear (b : BasicFields) : BasicFields := b.withOld .empty nofun

/- `find`. -/
def find (b : BasicFields) (name : Str) : Option Element := b.elements.find (nameKey name)

/- `operator[]`. -/
def value (b : BasicFields) (name : Str) : Str :=
  match b.find name with
  | none => []
  | some e => e.value

def atName (b : BasicFields) (name : Str) : Except String Str :=
  match b.find name with
  | none => .error "field not found"
  | some e => .ok e.value

def count (b : BasicFields) (name : Str) : ℕ := b.elements.count (nameKey name)

/- `equal_range`: the fields from its first place to its second. -/
def equalRange (b : BasicFields) (name : Str) : List Element := b.elements.range (nameKey name)

/-- The fields in the order in which they are written. -/
def fields (b : BasicFields) : List (Str × Str) := b.elements.list.map fun e => (e.name, e.value)

/-! ### The fields as a list -/

def pair (e : Element) : Str × Str := (e.name, e.value)

/- Whether the field has the name. -/
def named (name : Str) (f : Str × Str) : Bool := iequals f.1 name

theorem named_pair (name : Str) (e : Element) :
    named name (pair e) = decide (elementKey e = nameKey name) := by
  rw [Bool.eq_iff_iff, decide_eq_true_iff, nameKey_eq_iff]
  rfl

theorem map_ofKey (name : Str) (l : List Element) :
    (ofKey elementKey (nameKey name) l).map pair = (l.map pair).filter (named name) := by
  rw [List.filter_map]
  refine congrArg (List.map pair) (List.filter_congr fun e _ => ?_)
  rw [Function.comp_apply, named_pair]
  exact decide_eq_decide.mpr Iff.rfl

theorem map_withoutKey (name : Str) (l : List Element) :
    (withoutKey elementKey (nameKey name) l).map pair =
      (l.map pair).filter fun f => !named name f := by
  rw [List.filter_map]
  refine congrArg (List.map pair) (List.filter_congr fun e _ => ?_)
  rw [Function.comp_apply, named_pair, ← decide_not]
  exact decide_eq_decide.mpr Iff.rfl

/- An element behind the last of its name is what the parser's list makes of it. -/
theorem map_addLast (e : Element) (l : List Element) :
    (addLast elementKey e l).map pair = addField (pair e) (l.map pair) := by
  induction l with
  | nil => rfl
  | cons g l ih =>
    have hname : ∀ c : Element, iequals (pair c).1 (pair e).1 = decide (elementKey c = elementKey e) :=
      fun c => named_pair e.name c
    have hcond : (iequals (pair g).1 (pair e).1 && !(l.map pair).any (iequals ·.1 (pair e).1)) =
        decide (elementKey g = elementKey e ∧ ∀ c ∈ l, elementKey c ≠ elementKey e) := by
      rw [List.any_map, hname, Bool.decide_and]
      refine congrArg (decide (elementKey g = elementKey e) && ·) ?_
      rw [Bool.eq_iff_iff, decide_eq_true_iff, Bool.not_eq_true', List.any_eq_false]
      refine forall₂_congr fun c _ => ?_
      rw [Function.comp_apply, hname, decide_eq_true_iff]
    rw [List.map_cons, addField, hcond, addLast]
    by_cases h : elementKey g = elementKey e ∧ ∀ c ∈ l, elementKey c ≠ elementKey e
    · rw [if_pos h, decide_eq_true h, if_pos rfl]
      rfl
    · rw [if_neg h, decide_eq_false h, if_neg Bool.false_ne_true, ← ih]
      rfl

/- The calls that change the container. -/
inductive Change where
  | insert (name value : Str)
  | set (name value : Str)
  | erase (name : Str)
  | eraseAt (pos : ℕ)
  | clear

/- A call that throws has changed nothing. -/
def apply (b : BasicFields) : Change → BasicFields
  | .insert name value =>
    match b.insert name value with
    | .ok b' => b'
    | .error _ => b
  | .set name value =>
    match b.set name value with
    | .ok b' => b'
    | .error _ => b
  | .erase name => (b.erase name).2
  | .eraseAt pos => b.eraseAt pos
  | .clear => b.clear

def fits (name value : Str) : Bool := name.length + 2 ≤ offMax && value.length + 2 ≤ offMax

/-- What the calls mean for the list of the fields. -/
def applyList (l : List (Str × Str)) : Change → List (Str × Str)
  | .insert name value => if fits name value then addField (name, trim value) l else l
  | .set name value =>
    if fits name value then (l.filter fun f => !named name f) ++ [(name, trim value)] else l
  | .erase name => l.filter fun f => !named name f
  | .eraseAt pos => l.eraseIdx pos
  | .clear => []

theorem newElement_ok {b : BasicFields} {name value : Str} (h : fits name value = true) :
    ∃ e, b.newElement name value = .ok e ∧ pair e.1 = (name, trim value) := by
  rw [fits, Bool.and_eq_true, decide_eq_true_iff, decide_eq_true_iff] at h
  unfold newElement
  rw [dif_neg (Nat.not_lt_of_le h.1), dif_neg (Nat.not_lt_of_le h.2)]
  exact ⟨_, rfl, rfl⟩

theorem newElement_error {b : BasicFields} {name value : Str} (h : ¬ fits name value = true) :
    ∃ text, b.newElement name value = .error text := by
  rw [fits, Bool.and_eq_true, decide_eq_true_iff, decide_eq_true_iff] at h
  unfold newElement
  split
  · exact ⟨_, rfl⟩
  · split
    · exact ⟨_, rfl⟩
    · omega

theorem insert_ok (b : BasicFields) {name value : Str} (h : fits name value = true) :
    ∃ b', b.insert name value = .ok b' ∧
      b'.fields = addField (name, trim value) b.fields := by
  obtain ⟨e, he, hpair⟩ := newElement_ok (b := b) h
  refine ⟨b.insertElement e.1 e.2, ?_, ?_⟩
  · rw [insert, he]
    rfl
  · rw [← hpair]
    exact (congrArg (List.map pair) (Indexed.insert_list _ e.1 e.2.not_mem)).trans
      (map_addLast e.1 _)

theorem set_ok (b : BasicFields) {name value : Str} (h : fits name value = true) :
    ∃ b', b.set name value = .ok b' ∧
      b'.fields = (b.fields.filter fun f => !named name f) ++ [(name, trim value)] := by
  obtain ⟨e, he, hpair⟩ := newElement_ok (b := b) h
  have hname : e.1.name = name := congrArg Prod.fst hpair
  refine ⟨b.setElement e.1 e.2, ?_, ?_⟩
  · rw [set, he]
    rfl
  · rw [← hpair, ← hname]
    refine (congrArg (List.map pair) (Indexed.replace_list _ e.1 e.2.not_mem)).trans ?_
    rw [List.map_append, map_withoutKey]
    rfl

/-- A call changes the fields as it changes their list. -/
theorem fields_apply (b : BasicFields) (c : Change) : (b.apply c).fields = applyList b.fields c := by
  cases c with
  | insert name value =>
    rw [apply, applyList]
    by_cases hfits : fits name value = true
    · obtain ⟨b', hb, hfields⟩ := b.insert_ok hfits
      rw [hb, if_pos hfits]
      exact hfields
    · obtain ⟨text, htext⟩ := newElement_error (b := b) hfits
      rw [insert, htext, if_neg hfits]
      rfl
  | set name value =>
    rw [apply, applyList]
    by_cases hfits : fits name value = true
    · obtain ⟨b', hb, hfields⟩ := b.set_ok hfits
      rw [hb, if_pos hfits]
      exact hfields
    · obtain ⟨text, htext⟩ := newElement_error (b := b) hfits
      rw [set, htext, if_neg hfits]
      rfl
  | erase name =>
    exact (congrArg (List.map pair) (Indexed.eraseKey_list _ _)).trans (map_withoutKey name _)
  | eraseAt pos =>
    rw [apply, applyList, eraseAt]
    split
    · rename_i hnone
      rw [List.eraseIdx_of_length_le]
      rw [fields, List.length_map]
      exact List.getElem?_eq_none_iff.mp hnone
    · rename_i e he
      obtain ⟨hlt, rfl⟩ := List.getElem?_eq_some_iff.mp he
      rw [fields, fields, List.eraseIdx_map]
      refine congrArg (List.map pair) ?_
      exact b.elements.nodup.erase_getElem pos hlt
  | clear => rfl

theorem fields_foldl (b : BasicFields) (cs : List Change) :
    (cs.foldl apply b).fields = cs.foldl applyList b.fields := by
  induction cs generalizing b with
  | nil => rfl
  | cons c cs ih => rw [List.foldl_cons, List.foldl_cons, ih, fields_apply]

theorem find_fields (b : BasicFields) (name : Str) :
    (b.find name).map pair = b.fields.find? (named name) := by
  rw [find, Indexed.find_eq, ← List.head?_map, map_ofKey, List.head?_filter]
  rfl

theorem count_fields (b : BasicFields) (name : Str) :
    b.count name = b.fields.countP (named name) := by
  rw [count, Indexed.count_eq, ← List.length_map (f := pair), map_ofKey,
    List.countP_eq_length_filter]
  rfl

theorem equalRange_fields (b : BasicFields) (name : Str) :
    (b.equalRange name).map pair = b.fields.filter (named name) := by
  rw [equalRange, Indexed.range_eq, map_ofKey]
  rfl

/-- The fields of a name stand together. -/
theorem fields_together (b : BasicFields) (name : Str) :
    ∃ front back, b.fields = front ++ b.fields.filter (named name) ++ back := by
  obtain ⟨front, back, hsplit⟩ := grouped_split b.elements.grouped (nameKey name)
  refine ⟨front.map pair, back.map pair, (congrArg (List.map pair) hsplit).trans ?_⟩
  rw [List.map_append, List.map_append, map_ofKey]
  rfl

/-- After any calls the fields are what the calls mean for their list, the fields of a name stand
together, and what is found, counted or ranged over in the multiset is what the list has. -/
theorem fields_refine (cs : List Change) (name : Str) :
    (cs.foldl apply empty).fields = cs.foldl applyList [] ∧
      ((cs.foldl apply empty).find name).map pair = (cs.foldl applyList []).find? (named name) ∧
      (cs.foldl apply empty).count name = (cs.foldl applyList []).countP (named name) ∧
      ((cs.foldl apply empty).equalRange name).map pair =
        (cs.foldl applyList []).filter (named name) ∧
      ∃ front back, cs.foldl applyList [] =
        front ++ (cs.foldl applyList []).filter (named name) ++ back := by
  have h : (cs.foldl apply empty).fields = cs.foldl applyList [] := fields_foldl empty cs
  refine ⟨h, ?_⟩
  rw [← h]
  exact ⟨find_fields _ name, count_fields _ name, equalRange_fields _ name,
    fields_together _ name⟩

/-! ### Copies -/

/- `copy_all`: the elements of the other container are inserted. -/
def copyAll (b other : BasicFields) : Except String BasicFields :=
  other.elements.list.foldlM (fun b e => b.insert e.name e.value) b

/- What the container has made once is within the sizes, and its value stays as it is. -/
theorem insert_made (b : BasicFields) {other : BasicFields} {e : Element}
    (he : e ∈ other.elements.list) :
    ∃ b', b.insert e.name e.value = .ok b' ∧ b'.fields = addField (pair e) b.fields := by
  obtain ⟨hname, hvalue, htrim⟩ := other.made e he
  have hfits : fits e.name e.value = true := by
    rw [fits, decide_eq_true hname, decide_eq_true hvalue]
    rfl
  obtain ⟨b', hinsert, hfields⟩ := b.insert_ok hfits
  rw [htrim] at hfields
  exact ⟨b', hinsert, hfields⟩

theorem insert_all (other : BasicFields) (l : List Element)
    (hl : ∀ e ∈ l, e ∈ other.elements.list) (b : BasicFields) :
    ∃ b', l.foldlM (fun b e => b.insert e.name e.value) b = .ok b' ∧
      b'.fields = l.foldl (fun acc e => addField (pair e) acc) b.fields := by
  induction l generalizing b with
  | nil => exact ⟨b, rfl, rfl⟩
  | cons e l ih =>
    obtain ⟨he, hl⟩ := List.forall_mem_cons.mp hl
    obtain ⟨b₁, hinsert, hfields⟩ := b.insert_made he
    obtain ⟨b', hrest, hfields'⟩ := ih hl b₁
    refine ⟨b', ?_, ?_⟩
    · rw [List.foldlM_cons, hinsert]
      exact hrest
    · rw [hfields', hfields]
      rfl

theorem map_foldl_addLast (l acc : List Element) :
    l.foldl (fun acc e => addField (pair e) acc) (acc.map pair) =
      (l.foldl (fun acc e => addLast elementKey e acc) acc).map pair := by
  induction l generalizing acc with
  | nil => rfl
  | cons e l ih => rw [List.foldl_cons, List.foldl_cons, ← map_addLast, ih]

/-- A container is copied without an exception, and the copy has the same fields in the same
order. -/
theorem copyAll_fields (b : BasicFields) :
    ∃ b', copyAll empty b = .ok b' ∧ b'.fields = b.fields := by
  obtain ⟨b', hcopy, hfields⟩ := insert_all b b.elements.list (fun _ he => he) empty
  refine ⟨b', hcopy, ?_⟩
  -- the elements stand as they have been added
  calc b'.fields
      _ = b.elements.list.foldl (fun acc e => addField (pair e) acc) [] := hfields
      _ = (b.elements.list.foldl (fun acc e => addLast elementKey e acc) []).map pair :=
        map_foldl_addLast b.elements.list []
      _ = b.elements.list.map pair :=
        congrArg (List.map pair) (foldl_addLast b.elements.grouped)

/-! ### The containers of the client -/

/- What the parser makes of the fields is what `insert` makes of them. -/
theorem onField_insert {σ σ' : Parsed} {f : Str × Str} (h : onField σ f = .ok σ')
    (b : BasicFields) (hb : b.fields = σ.m.fields) :
    ∃ b', b.insert f.1 f.2 = .ok b' ∧ b'.fields = σ'.m.fields := by
  unfold onField at h
  split at h
  · cases h
  · rename_i hsize
    cases h
    rw [Bool.or_eq_true, decide_eq_true_iff, decide_eq_true_iff, not_or, not_lt, not_lt] at hsize
    have hfits : fits f.1 f.2 = true := by
      rw [fits, Bool.and_eq_true, decide_eq_true_iff, decide_eq_true_iff]
      exact hsize
    obtain ⟨b', hok, hfields⟩ := b.insert_ok hfits
    rw [hb] at hfields
    exact ⟨b', hok, hfields⟩

/- The constructor of `Session`; `keep_alive(true)` erases a `Connection`. -/
theorem prepared_fields {mHost : Str} (h : mHost.length + 2 ≤ offMax) :
    ([.set "Host".toList mHost, .erase "Connection".toList,
      .set "User-Agent".toList "Boost.Beast/328".toList].foldl apply empty).fields =
        (Session.preparedRequest mHost).fields := by
  have hfits : fits "Host".toList mHost = true := by
    rw [fits, decide_eq_true h]
    rfl
  have hhost : applyList empty.fields (.set "Host".toList mHost) =
      [("Host".toList, trim mHost)] := by
    rw [applyList, if_pos hfits]
    rfl
  rw [fields_foldl, List.foldl_cons, hhost]
  rfl

end BasicFields

end RestClient
