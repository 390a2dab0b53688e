import RestClient.ReadResponse

/-!
# Where the body of a response ends

The fields of a response that is delivered leave no choice of what its body is: they give one
length, or they end with the chunked coding, and never both; what is delivered as the body has
that length, and no body is longer than the limit. Where they tell of neither, and only there,
the body goes on to the end of the stream.
-/

namespace RestClient.ResponseParser
open Scanning

/-! ### Values are trimmed -/

def Trimmed (s : Str) : Prop := s.dropWhile isBlank = s ∧ trimBack s = s

theorem trimmed_nil : Trimmed [] := ⟨rfl, rfl⟩

/- A text that begins with no blank. -/
theorem trimmed_trimBack {text : Str} (h : ∀ c, text.head? = some c → isBlank c = false) :
    Trimmed (trimBack text) := by
  refine ⟨?_, List.rdropWhile_idempotent isBlank text⟩
  obtain ⟨back, hback⟩ := List.rdropWhile_prefix isBlank text
  change trimBack text ++ back = text at hback
  cases htrim : trimBack text with
  | nil => rfl
  | cons c s =>
    refine List.dropWhile_cons_of_neg ?_
    rw [h c (by rw [← hback, htrim]; rfl)]
    exact Bool.false_ne_true

theorem Trimmed.join {a b : Str} (ha : Trimmed a) (hb : Trimmed b) (hane : a ≠ []) (hbne : b ≠ []) :
    Trimmed (a ++ ' ' :: b) := by
  constructor
  · cases a with
    | nil => exact absurd rfl hane
    | cons c a =>
      have hc := List.dropWhile_eq_self_iff.mp ha.1 (Nat.succ_pos _)
      exact List.dropWhile_cons_of_neg hc
  · refine List.rdropWhile_eq_self_iff.mpr fun hne => ?_
    have hlast := List.rdropWhile_eq_self_iff.mp hb.2 hbne
    rwa [List.getLast_append_of_ne_nil (by exact hne) (List.cons_ne_nil _ _),
      List.getLast_cons hbne]

theorem trim_of_trimmed {s : Str} (h : Trimmed s) : trim s = s := by
  rw [trim, h.1, h.2]

theorem foldedLine_trimmed {b rest : Str} {r : Str × Bool} (h : foldedLine b = .done r rest) :
    Trimmed r.1 := by
  obtain ⟨blanks, b1, hspan, h1⟩ := andThen_eq_done h
  obtain ⟨text, b2, htext, h2⟩ := andThen_eq_done h1
  obtain ⟨c, b3, hpeek, h3⟩ := andThen_eq_done h2
  obtain ⟨-, -, d, tail, rfl, hd⟩ := span_eq_done hspan
  have hhead : ∀ c, text.head? = some c → isBlank c = false := by
    intro c hc
    have hsplit := (parseTokenToEol_eq_done htext).1
    cases text with
    | nil => cases hc
    | cons e text =>
      cases hc
      cases hsplit
      exact hd
  split at h3
  · obtain ⟨_, b4, -, h4⟩ := andThen_eq_done h3
    cases h4
    exact trimmed_trimBack hhead
  · cases h3
    exact trimmed_trimBack hhead

theorem tryAppend_value {buf s b rest buf' : Str} (h : tryAppend buf s b = .done buf' rest) :
    buf' = buf ++ s := by
  unfold tryAppend at h
  split at h <;> cases h
  rfl

theorem valueLine_trimmed {buf b rest : Str} {r : Str ⊕ Str} (hbuf : Trimmed buf)
    (h : valueLine buf b = .done r rest) : Trimmed (r.elim id id) := by
  obtain ⟨⟨text, fold⟩, mid, hline, h1⟩ := andThen_eq_done h
  have htext : Trimmed text := foldedLine_trimmed hline
  dsimp only at h1
  split at h1
  · split at h1
    · obtain ⟨buf', mid', happ, h2⟩ := andThen_eq_done h1
      cases h2
      rw [tryAppend_value happ]
      exact htext
    · cases h1
      exact htext
  · rename_i hne
    obtain ⟨buf', mid', happ, h2⟩ := andThen_eq_done h1
    have hbuf' : Trimmed buf' := by
      split at happ
      · cases happ
        exact hbuf
      · rename_i hne'
        rw [tryAppend_value happ]
        exact hbuf.join htext hne hne'
    cases h2
    split <;> exact hbuf'

theorem parseField_trimmed {b rest : Str} {f : Str × Str} (h : parseField b = .done f rest) :
    Trimmed f.2 := by
  obtain ⟨name, b1, -, h1⟩ := andThen_eq_done h
  obtain ⟨_, b2, -, h2⟩ := andThen_eq_done h1
  obtain ⟨_, b3, -, h3⟩ := andThen_eq_done h2
  obtain ⟨value, b4, hvalue, h4⟩ := andThen_eq_done h3
  cases h4
  refine repeated_preserves (P := Trimmed) (Q := Trimmed) consumes_valueLine ?_ ?_ trimmed_nil hvalue
  · exact fun _ _ _ _ hbuf hline => valueLine_trimmed hbuf hline
  · exact fun _ _ _ _ hbuf hline => valueLine_trimmed hbuf hline

/-! ### What the fields say of the body -/

def isLength (f : Str × Str) : Bool := iequals f.1 "content-length".toList

def isChunked (f : Str × Str) : Bool :=
  iequals f.1 "transfer-encoding".toList && endsChunked f.2

theorem iequals_trans {name a b : Str} (ha : iequals name a = true) (hb : iequals name b = true) :
    iequals a b = true := by
  unfold iequals at *
  rw [beq_iff_eq] at *
  exact ha.symm.trans hb

theorem mem_addField {f g : Str × Str} {gs : List (Str × Str)} :
    f ∈ addField g gs ↔ f = g ∨ f ∈ gs := by
  induction gs with
  | nil => exact List.mem_singleton.trans (or_iff_left List.not_mem_nil).symm
  | cons e gs ih =>
    unfold addField
    split
    · simp only [List.mem_cons]
      tauto
    · simp only [List.mem_cons, ih]
      tauto

/-- What the parser knows of the body is what the fields say of it. -/
structure FieldsKnown (σ : Parsed) : Prop where
  length : ∀ f ∈ σ.m.fields, isLength f = true →
    σ.contentLength = true ∧ contentLengthOf none f.2 = some σ.len0
  lengthGiven : σ.contentLength = true → σ.len = σ.len0 ∧ ∃ f ∈ σ.m.fields, isLength f = true
  chunked : ∀ f ∈ σ.m.fields, isChunked f = true → σ.chunked = true
  chunkedGiven : σ.chunked = true → ∃ f ∈ σ.m.fields, isChunked f = true
  exclusive : σ.contentLength = true → σ.chunked = false

/- A field more, of which `σ'` knows. -/
theorem FieldsKnown.add {σ σ' : Parsed} {f : Str × Str} (h : FieldsKnown σ)
    (hm : σ'.m = σ.m)
    (hlength : isLength f = true → σ'.contentLength = true ∧
      contentLengthOf none f.2 = some σ'.len0)
    (hold : σ.contentLength = true → σ'.contentLength = true ∧ σ'.len0 = σ.len0)
    (hgiven : σ'.contentLength = true → σ'.len = σ'.len0 ∧
      (σ.contentLength = true ∨ isLength f = true))
    (hchunked : isChunked f = true → σ'.chunked = true)
    (hkept : σ.chunked = true → σ'.chunked = true)
    (hcoding : σ'.chunked = true → σ.chunked = true ∨ isChunked f = true)
    (hexcl : σ'.contentLength = true → σ'.chunked = false) :
    FieldsKnown { σ' with m := { σ'.m with fields := addField f σ'.m.fields } } where
  length g hg hlen := by
    rw [hm] at hg
    rcases mem_addField.mp hg with rfl | hg
    · exact hlength hlen
    · obtain ⟨hcl, hvalue⟩ := h.length g hg hlen
      obtain ⟨hcl', hsame⟩ := hold hcl
      exact ⟨hcl', hvalue.trans (congrArg some hsame.symm)⟩
  lengthGiven hcl := by
    obtain ⟨hlen, hwhere⟩ := hgiven hcl
    refine ⟨hlen, ?_⟩
    rcases hwhere with hcl₀ | hf
    · obtain ⟨-, g, hg, hglen⟩ := h.lengthGiven hcl₀
      exact ⟨g, mem_addField.mpr (.inr (hm ▸ hg)), hglen⟩
    · exact ⟨f, mem_addField.mpr (.inl rfl), hf⟩
  chunked g hg hch := by
    rw [hm] at hg
    rcases mem_addField.mp hg with rfl | hg
    · exact hchunked hch
    · exact hkept (h.chunked g hg hch)
  chunkedGiven hch := by
    rcases hcoding hch with hch₀ | hf
    · obtain ⟨g, hg, hgch⟩ := h.chunkedGiven hch₀
      exact ⟨g, mem_addField.mpr (.inr (hm ▸ hg)), hgch⟩
    · exact ⟨f, mem_addField.mpr (.inl rfl), hf⟩
  exclusive := hexcl

/- A length that agrees with the one known before. -/
theorem agreed_some {e v : ℕ} {ts : List Str} (h : agreed (some e) ts = some v) :
    v = e ∧ (ts ≠ [] → agreed none ts = some v) := by
  induction ts generalizing e with
  | nil =>
    cases h
    exact ⟨rfl, fun hne => absurd rfl hne⟩
  | cons tok ts ih =>
    unfold agreed at h ⊢
    cases hdec : parseDec tok with
    | none =>
      rw [hdec] at h
      cases h
    | some w =>
      rw [hdec] at h
      dsimp only at h ⊢
      obtain ⟨hsame, h⟩ := Option.ite_none_right_eq_some.mp h
      have hwe : w = e := (beq_iff_eq.mp hsame).symm
      refine ⟨(ih h).1.trans hwe, fun _ => ?_⟩
      exact h

theorem contentLengthOf_some {e v : ℕ} {value : Str} (h : contentLengthOf (some e) value = some v) :
    v = e ∧ contentLengthOf none value = some v := by
  unfold contentLengthOf at h ⊢
  dsimp only at h ⊢
  obtain ⟨hone, h⟩ := Option.ite_none_left_eq_some.mp h
  obtain ⟨hcount, h⟩ := Option.ite_none_left_eq_some.mp h
  obtain ⟨hv, hnone⟩ := agreed_some h
  rw [if_neg hone, if_neg hcount]
  refine ⟨hv, hnone fun hnil => hone ?_⟩
  rw [hnil]
  rfl

theorem isLength_of {name value : Str} {key : Str} (hname : iequals name key = true)
    (hkey : iequals key "content-length".toList = false) : isLength (name, value) = false := by
  refine eq_false_of_ne_true fun h => ?_
  exact absurd ((iequals_trans hname h).symm.trans hkey) (by decide)

theorem isChunked_of {name value : Str} {key : Str} (hname : iequals name key = true)
    (hkey : iequals key "transfer-encoding".toList = false) : isChunked (name, value) = false := by
  refine eq_false_of_ne_true fun h => ?_
  have hcoding := (Bool.and_eq_true_iff.mp h).1
  exact absurd ((iequals_trans hname hcoding).symm.trans hkey) (by decide)

/- A field of which the parser makes nothing. -/
theorem FieldsKnown.other {σ : Parsed} {f : Str × Str} (h : FieldsKnown σ)
    (hlen : isLength f = false) (hch : isChunked f = false) :
    FieldsKnown { σ with m := { σ.m with fields := addField f σ.m.fields } } := by
  refine h.add rfl ?_ (fun hcl => ⟨hcl, rfl⟩) (fun hcl => ⟨(h.lengthGiven hcl).1, .inl hcl⟩) ?_
    id .inl h.exclusive
  · rw [hlen]
    exact nofun
  · rw [hch]
    exact nofun

theorem doField_known {σ σ' : Parsed} {f : Str × Str} (h : FieldsKnown σ)
    (hdo : doField σ f.1 f.2 = .ok σ') :
    FieldsKnown { σ' with m := { σ'.m with fields := addField f σ'.m.fields } } := by
  unfold doField at hdo
  split at hdo
  · rename_i hname
    split at hdo <;> cases hdo
    rcases Bool.or_eq_true_iff.mp hname with hname | hname <;>
      exact h.other (isLength_of hname (by decide)) (isChunked_of hname (by decide))
  split at hdo
  · rename_i hname
    split at hdo
    · cases hdo
    rename_i hch
    split at hdo
    · cases hdo
    rename_i v hv
    cases hdo
    have hvalue : contentLengthOf none f.2 = some v := by
      split at hv
      · exact (contentLengthOf_some hv).2
      · exact hv
    have hsame : σ.contentLength = true → v = σ.len0 := by
      intro hcl
      rw [if_pos hcl] at hv
      exact (contentLengthOf_some hv).1
    have hnot : isChunked f = false := isChunked_of hname (by decide)
    refine h.add rfl (fun _ => ⟨rfl, hvalue⟩) (fun hcl => ⟨rfl, hsame hcl⟩)
      (fun _ => ⟨rfl, .inr hname⟩) ?_ id .inl (fun _ => eq_false_of_ne_true hch)
    rw [hnot]
    exact nofun
  rename_i hnotLength
  have hnotLen : isLength f = false := eq_false_of_ne_true hnotLength
  split at hdo
  · rename_i hname
    split at hdo
    · cases hdo
    rename_i hch
    split at hdo
    · cases hdo
    rename_i hcl
    split at hdo <;> cases hdo
    · rename_i hends
      have hchunk : isChunked f = true := Bool.and_eq_true_iff.mpr ⟨hname, hends⟩
      refine h.add rfl ?_ (fun hcl' => absurd hcl' hcl) (fun hcl' => absurd hcl' hcl)
        (fun _ => rfl) (fun _ => rfl) (fun _ => .inr hchunk) (fun hcl' => absurd hcl' hcl)
      rw [hnotLen]
      exact nofun
    · rename_i hends
      have hchunk : isChunked f = false := by
        refine eq_false_of_ne_true fun hc => hends (Bool.and_eq_true_iff.mp hc).2
      exact h.other hnotLen hchunk
  · rename_i hname
    cases hdo
    have hchunk : isChunked f = false := by
      refine eq_false_of_ne_true fun hc => hname (Bool.and_eq_true_iff.mp hc).1
    exact h.other hnotLen hchunk

/- The value of the field is stored as it was looked at. -/
theorem onField_trimmed {σ σ' : Parsed} {f : Str × Str} (hf : Trimmed f.2)
    (h : onField σ f = .ok σ') :
    σ' = { σ with m := { σ.m with fields := addField f σ.m.fields } } := by
  unfold onField at h
  split at h
  · cases h
  · cases h
    rw [trim_of_trimmed hf]

theorem fieldStep_known {σ : Parsed} {b rest : Str} {r : Parsed ⊕ Parsed} (hknown : FieldsKnown σ)
    (h : fieldStep σ b = .done r rest) : FieldsKnown (r.elim id id) := by
  obtain ⟨-, h⟩ := atLeast_eq_done h
  obtain ⟨c, b1, -, h1⟩ := andThen_eq_done h
  split at h1
  · obtain ⟨_, b2, -, h2⟩ := andThen_eq_done h1
    obtain ⟨_, b3, -, h3⟩ := andThen_eq_done h2
    obtain ⟨_, b4, -, h4⟩ := andThen_eq_done h3
    cases h4
    exact hknown
  · obtain ⟨f, b2, hfield, h2⟩ := andThen_eq_done h1
    obtain ⟨σ', b3, hdo, h3⟩ := andThen_eq_done h2
    obtain ⟨σ'', b4, hon, h4⟩ := andThen_eq_done h3
    cases h4
    rw [Sum.elim_inl, id, onField_trimmed (parseField_trimmed hfield) (lift_eq_done hon).1]
    exact doField_known hknown (lift_eq_done hdo).1

theorem scanFields_known {σ σ' : Parsed} {b rest : Str} (hknown : FieldsKnown σ)
    (h : scanFields σ b = .done σ' rest) : FieldsKnown σ' ∧ Kept σ σ' := by
  refine repeated_preserves (P := fun σ₁ => FieldsKnown σ₁ ∧ Kept σ σ₁)
    (Q := fun σ₁ => FieldsKnown σ₁ ∧ Kept σ σ₁) consumes_fieldStep ?_ ?_ ⟨hknown, .refl σ⟩ h
  · exact fun _ _ _ _ hp hstep => ⟨fieldStep_known hp.1 hstep, hp.2.trans (fieldStep_kept hstep)⟩
  · exact fun _ _ _ _ hp hstep => ⟨fieldStep_known hp.1 hstep, hp.2.trans (fieldStep_kept hstep)⟩

/-! ### The body -/

/- The fields do not touch the length once the body is chunked. -/
theorem FieldsKnown.chunks {σ σ' : Parsed} (h : FieldsKnown σ) (hch : σ.chunked = true)
    (hfields : σ'.m.fields = σ.m.fields) (hcl : σ'.contentLength = σ.contentLength)
    (hch' : σ'.chunked = σ.chunked) : FieldsKnown σ' := by
  have hnone : σ.contentLength = false := by
    refine eq_false_of_ne_true fun htrue => ?_
    exact absurd ((h.exclusive htrue).symm.trans hch) Bool.false_ne_true
  have hnone' : σ'.contentLength ≠ true := by
    rw [hcl, hnone]
    exact Bool.false_ne_true
  refine ⟨fun f hf hlen => ?_, fun htrue => absurd htrue hnone', fun f hf hc => ?_, fun hc => ?_,
    fun htrue => absurd htrue hnone'⟩
  · rw [hfields] at hf
    exact absurd ((h.length f hf hlen).1.symm.trans hnone) (by decide)
  · exact hch'.trans hch
  · rw [hfields]
    exact h.chunkedGiven hch

/- Within a chunked body: what is left of the limit and of the chunk makes room for no more
than the limit of old. -/
structure ChunksRead (status : ℕ) (before : Str) (limit : ℕ) (σ : Parsed) : Prop where
  known : FieldsKnown σ
  chunked : σ.chunked = true
  status : σ.m.status = status
  data : ∃ data, σ.m.body = before ++ data ∧
    data.length + (if σ.state = .chunkBody then σ.len else 0) + σ.bodyLimit ≤ limit

theorem chunkData_read {status limit : ℕ} {before b rest : Str} {σ σ' : Parsed}
    (h : ChunksRead status before limit σ) (hd : chunkData σ b = .done σ' rest) :
    ChunksRead status before limit σ' ∧ σ'.state ≠ .chunkBody := by
  obtain ⟨hknown, hch, hstatus, data, hbody, hlimit⟩ := h
  unfold chunkData at hd
  split at hd
  · rename_i hstate
    obtain ⟨d, mid, hexact, hret⟩ := andThen_eq_done hd
    cases hret
    obtain ⟨-, hlen⟩ := exactly_eq_done hexact
    rw [if_pos hstate] at hlimit
    refine ⟨⟨hknown.chunks hch rfl rfl rfl, hch, hstatus, data ++ d, ?_, ?_⟩, nofun⟩
    · exact (congrArg (· ++ d) hbody).trans (List.append_assoc ..)
    · rw [if_neg nofun, List.length_append]
      show data.length + d.length + 0 + σ.bodyLimit ≤ limit
      omega
  · rename_i hstate
    cases hd
    exact ⟨⟨hknown, hch, hstatus, data, hbody, hlimit⟩, hstate⟩

theorem chunkStep_read {status limit : ℕ} {before b rest : Str} {σ : Parsed} {r : Parsed ⊕ Parsed}
    (h : ChunksRead status before limit σ) (hs : chunkStep σ b = .done r rest) :
    ChunksRead status before limit (r.elim id id) := by
  obtain ⟨σ₁, b1, hdata, h1⟩ := andThen_eq_done hs
  obtain ⟨size, b2, -, h2⟩ := andThen_eq_done h1
  obtain ⟨⟨hknown, hch, hstatus, data, hbody, hlimit⟩, hstate⟩ := chunkData_read h hdata
  rw [if_neg hstate] at hlimit
  unfold afterLine at h2
  split at h2
  · obtain ⟨σ₂, b3, hfields, hret⟩ := andThen_eq_done h2
    cases hret
    obtain ⟨hknown', hkept⟩ := scanFields_known hknown hfields
    refine ⟨hknown'.chunks (hkept.chunked hch) rfl rfl rfl, hkept.chunked hch,
      hkept.status.trans hstatus, data, hkept.body.trans hbody, ?_⟩
    show data.length + 0 + σ₂.bodyLimit ≤ limit
    rw [hkept.bodyLimit]
    exact hlimit
  · split at h2
    · cases h2
    · rename_i hsize
      cases h2
      refine ⟨hknown.chunks hch rfl rfl rfl, hch, hstatus, data, hbody, ?_⟩
      show data.length + size + (σ₁.bodyLimit - size) ≤ limit
      omega

/-! ### The whole response -/

/- The status rules a body out. -/
def bodiless (status : ℕ) : Bool := status / 100 = 1 || status = 204 || status = 304

/- No field tells how long the body is, and the status does not say that there is none. -/
def Untold (r : Response) : Prop :=
  bodiless r.status = false ∧ ∀ f ∈ r.fields, isLength f = false ∧ isChunked f = false

/-- The fields of the response give its body one length or the chunked coding, never both, and
`data` is the body they tell of. -/
structure Framed (r : Response) (data : Str) : Prop where
  limit : data.length ≤ defaultBodyLimit
  oneLength : ∃ n, ∀ f ∈ r.fields, isLength f = true → contentLengthOf none f.2 = some n
  oneWay : ∀ f ∈ r.fields, ∀ g ∈ r.fields, isLength f = true → isChunked g = false
  nothing : bodiless r.status = true → data = []
  told : bodiless r.status = false →
    (∃ f ∈ r.fields, isLength f = true ∧ contentLengthOf none f.2 = some data.length) ∨
      (∃ f ∈ r.fields, isChunked f = true) ∨ Untold r

/- What follows from the fields alone. -/
theorem FieldsKnown.framed {σ : Parsed} {r : Response} {data : Str} (h : FieldsKnown σ)
    (hr : r.fields = σ.m.fields) (hlimit : data.length ≤ defaultBodyLimit)
    (hnothing : bodiless r.status = true → data = [])
    (htold : bodiless r.status = false →
      σ.contentLength = true ∧ data.length = σ.len0 ∨ σ.chunked = true ∨ Untold r) :
    Framed r data where
  limit := hlimit
  oneLength := ⟨σ.len0, fun f hf hlen => (h.length f (hr ▸ hf) hlen).2⟩
  oneWay f hf g hg hlen := by
    refine eq_false_of_ne_true fun hch => ?_
    have hfalse := h.exclusive (h.length f (hr ▸ hf) hlen).1
    exact absurd (hfalse.symm.trans (h.chunked g (hr ▸ hg) hch)) Bool.false_ne_true
  nothing := hnothing
  told hstatus := by
    rw [hr]
    rcases htold hstatus with ⟨hcl, hlen⟩ | hch | huntold
    · obtain ⟨-, f, hf, hflen⟩ := h.lengthGiven hcl
      exact .inl ⟨f, hf, hflen, hlen ▸ (h.length f hf hflen).2⟩
    · exact .inr (.inl (h.chunkedGiven hch))
    · exact .inr (.inr huntold)

/- The body of which a field tells. -/
theorem FieldsKnown.framed_told {σ : Parsed} {r : Response} {data : Str} (h : FieldsKnown σ)
    (hr : r.fields = σ.m.fields) (hlimit : data.length ≤ defaultBodyLimit)
    (hnothing : bodiless r.status = true → data = [])
    (htold : bodiless r.status = false →
      σ.contentLength = true ∧ data.length = σ.len0 ∨ σ.chunked = true) :
    Framed r data ∧ ¬Untold r := by
  refine ⟨h.framed hr hlimit hnothing fun hstatus => ?_, fun ⟨hstatus, hnone⟩ => ?_⟩
  · exact (htold hstatus).imp_right .inl
  · rw [hr] at hnone
    rcases htold hstatus with ⟨hcl, -⟩ | hch
    · obtain ⟨-, f, hf, hlen⟩ := h.lengthGiven hcl
      exact absurd ((hnone f hf).1.symm.trans hlen) Bool.false_ne_true
    · obtain ⟨f, hf, hchunk⟩ := h.chunkedGiven hch
      exact absurd ((hnone f hf).2.symm.trans hchunk) Bool.false_ne_true

/- The body of which none does. -/
theorem FieldsKnown.framed_untold {σ : Parsed} {r : Response} {data : Str} (h : FieldsKnown σ)
    (hr : r.fields = σ.m.fields) (hlimit : data.length ≤ defaultBodyLimit)
    (hstatus : bodiless r.status = false) (hcl : σ.contentLength ≠ true)
    (hch : σ.chunked ≠ true) : Framed r data ∧ Untold r := by
  have huntold : Untold r := by
    refine ⟨hstatus, fun f hf => ⟨?_, ?_⟩⟩
    · exact eq_false_of_ne_true fun hlen => hcl (h.length f (hr ▸ hf) hlen).1
    · exact eq_false_of_ne_true fun hchunk => hch (h.chunked f (hr ▸ hf) hchunk)
  refine ⟨h.framed hr hlimit (fun htrue => ?_) fun _ => .inr (.inr huntold), huntold⟩
  exact absurd (hstatus.symm.trans htrue) Bool.false_ne_true

theorem parseStartLine_keeps {σ σ' : Parsed} {b rest : Str}
    (h : parseStartLine σ b = .done σ' rest) :
    σ'.m.fields = σ.m.fields ∧ σ'.m.body = σ.m.body := by
  obtain ⟨version, b1, -, h1⟩ := andThen_eq_done h
  obtain ⟨_, b2, -, h2⟩ := andThen_eq_done h1
  obtain ⟨_, b3, -, h3⟩ := andThen_eq_done h2
  obtain ⟨_, b4, -, h4⟩ := andThen_eq_done h3
  obtain ⟨status, b5, -, h5⟩ := andThen_eq_done h4
  obtain ⟨reason, b6, -, h6⟩ := andThen_eq_done h5
  cases h6
  exact ⟨rfl, rfl⟩

/- At the end of the header nothing of the body has been read. -/
theorem scanHeader_known {m : Response} {σ : Parsed} {b rest : Str}
    (h : scanHeader (initial m).toParsed b = .done σ rest) :
    FieldsKnown σ ∧ σ.m.body = m.body ∧ σ.bodyLimit = defaultBodyLimit := by
  obtain ⟨σ₁, mid, hline, hfields⟩ := andThen_eq_done h
  have hsame := (parseStartLine_eq_done hline).2
  obtain ⟨hnone, hbody⟩ := parseStartLine_keeps hline
  have hknown : FieldsKnown σ₁ := by
    have hempty : ∀ f, f ∉ σ₁.m.fields := by
      rw [hnone]
      exact fun f => List.not_mem_nil
    refine ⟨fun f hf => absurd hf (hempty f), fun hcl => ?_, fun f hf => absurd hf (hempty f),
      fun hch => ?_, fun hcl => ?_⟩ <;> rw [hsame] at * <;> contradiction
  obtain ⟨hknown', hkept⟩ := scanFields_known hknown hfields
  refine ⟨hknown', hkept.body.trans hbody, hkept.bodyLimit.trans ?_⟩
  rw [hsame]
  rfl

theorem scanChunks_framed {σ σ' : Parsed} {b rest : Str} (hknown : FieldsKnown σ)
    (hch : σ.chunked = true) (hlimit : σ.bodyLimit = defaultBodyLimit)
    (hstatus : bodiless σ.m.status = false) (hstate : σ.state = .chunkHeader)
    (h : scanChunks σ b = .done σ' rest) :
    ∃ data, σ'.m.body = σ.m.body ++ data ∧ Framed σ'.m data ∧ ¬Untold σ'.m := by
  have hstart : ChunksRead σ.m.status σ.m.body defaultBodyLimit σ := by
    refine ⟨hknown, hch, rfl, [], (List.append_nil _).symm, ?_⟩
    rw [hstate, hlimit]
    exact Nat.le_of_eq (Nat.zero_add _)
  have hend := repeated_preserves (P := ChunksRead σ.m.status σ.m.body defaultBodyLimit)
    (Q := ChunksRead σ.m.status σ.m.body defaultBodyLimit) consumes_chunkStep
    (fun _ _ _ _ hp hstep => chunkStep_read hp hstep)
    (fun _ _ _ _ hp hstep => chunkStep_read hp hstep) hstart h
  obtain ⟨hknown', hch', hstatus', data, hbody, hdata⟩ := hend
  refine ⟨data, hbody, hknown'.framed_told rfl (by omega) ?_ fun _ => .inr hch'⟩
  rw [hstatus', hstatus]
  exact nofun

/- The body by the state that the header leads to. -/
theorem afterHeader_framed {σ σ' : Parsed} {b rest : Str} (hknown : FieldsKnown σ)
    (hlimit : σ.bodyLimit = defaultBodyLimit) (h : afterHeader σ b = .done σ' rest) :
    ∃ data, σ'.m.body = σ.m.body ++ data ∧ Framed σ'.m data ∧ ¬Untold σ'.m := by
  obtain ⟨σ₁, b1, hfin, hscan⟩ := andThen_eq_done h
  obtain ⟨hfin, rfl⟩ := lift_eq_done hfin
  have hempty : σ.m.body = σ.m.body ++ [] := (List.append_nil _).symm
  unfold finishHeader at hfin
  split at hfin
  · rename_i hstatus
    cases hfin
    cases hscan
    refine ⟨[], hempty, hknown.framed_told rfl (Nat.zero_le _) (fun _ => rfl) fun hnot => ?_⟩
    exact absurd (hnot.symm.trans hstatus) Bool.false_ne_true
  rename_i hstatus
  have hstatus : bodiless σ.m.status = false := eq_false_of_ne_true hstatus
  have hnot : bodiless σ.m.status = true → ∀ data : Str, data = [] := fun htrue =>
    absurd (hstatus.symm.trans htrue) Bool.false_ne_true
  split at hfin
  · rename_i hcl
    obtain ⟨hsame, -⟩ := hknown.lengthGiven hcl
    split at hfin
    · rename_i hpos
      split at hfin
      · cases hfin
      rename_i hfits
      cases hfin
      obtain ⟨data, mid, hexact, hret⟩ := andThen_eq_done hscan
      cases hret
      obtain ⟨-, hlen⟩ := exactly_eq_done hexact
      have hlen : data.length = σ.len := hlen
      refine ⟨data, rfl, ?_⟩
      refine hknown.framed_told rfl ?_ (fun htrue => hnot htrue data) fun _ => ?_
      · omega
      · exact .inl ⟨hcl, hlen.trans hsame⟩
    · rename_i hzero
      cases hfin
      cases hscan
      refine ⟨[], hempty, hknown.framed_told rfl (Nat.zero_le _) (fun _ => rfl) fun _ => ?_⟩
      exact .inl ⟨hcl, (Nat.eq_zero_of_not_pos hzero).symm.trans hsame⟩
  split at hfin
  · rename_i hch
    cases hfin
    have hknown' : FieldsKnown { σ with state := .chunkHeader } := hknown.chunks hch rfl rfl rfl
    have hchunks := scanChunks_framed hknown' hch hlimit hstatus rfl hscan
    exact hchunks
  · cases hfin
    change scanToEof _ _ = _ at hscan
    unfold scanToEof at hscan
    split at hscan <;> cases hscan

/- Why the body ends with the stream. -/
theorem finishHeader_toEnd {σ σ' : Parsed} (h : finishHeader σ = .ok σ')
    (hends : endsWithStream σ'.state = true) :
    σ' = { σ with state := .bodyToEof0 } ∧ bodiless σ.m.status = false ∧
      σ.contentLength ≠ true ∧ σ.chunked ≠ true := by
  unfold finishHeader at h
  split at h
  · cases h
    cases hends
  rename_i hstatus
  split at h
  · split at h
    · split at h <;> cases h
      cases hends
    · cases h
      cases hends
  rename_i hcl
  split at h <;> cases h
  · cases hends
  · rename_i hch
    exact ⟨rfl, eq_false_of_ne_true hstatus, hcl, hch⟩

/- All that follows the header is the body. -/
theorem scanToEnd_framed {m r : Response} {b : Str}
    (h : scanToEnd (initial m).toParsed b = some r) :
    ∃ data, r.body = m.body ++ data ∧ Framed r data ∧ Untold r := by
  have hin : inHeader (initial m).state = true := rfl
  rw [scanToEnd, if_pos hin] at h
  split at h
  · rename_i σ data hheader
    obtain ⟨hknown, hbefore, hlimit⟩ := scanHeader_known hheader
    split at h
    · rename_i σ₁ hfin
      obtain ⟨hends, hret⟩ := Option.ite_none_right_eq_some.mp h
      obtain ⟨hends, hfits⟩ := Bool.and_eq_true_iff.mp hends
      have hfits := of_decide_eq_true hfits
      obtain ⟨rfl, hstatus, hcl, hch⟩ := finishHeader_toEnd hfin hends
      cases hret
      refine ⟨data, congrArg (· ++ data) hbefore, ?_⟩
      refine hknown.framed_untold rfl ?_ hstatus hcl hch
      exact hlimit ▸ hfits
    · cases h
  · cases h

/-- Whatever the bytes are, the fields of a response that is delivered give its body one length
or the chunked coding, never both, and it is the body they tell of. It goes on to the end of the
stream exactly when they tell of none. -/
theorem delivered_framed {m r : Response} {b rest : Str} {chunks unread : List Str}
    (h : asyncReadToEnd m b chunks = (.delivered r rest, unread)) :
    ∃ data, r.body = m.body ++ data ∧ Framed r data ∧
      (Untold r ↔ ∃ p left, asyncRead m b chunks = (.waiting p left, [])) := by
  rcases asyncReadToEnd_delivered h with hread | ⟨hwaits, -, -, hend⟩
  · obtain ⟨read, σ, -, rfl, hscan⟩ := receive_sound (initial_ready m b) hread
    rw [scanMessage_inHeader rfl] at hscan
    obtain ⟨σ₁, mid, hheader, hbody⟩ := andThen_eq_done hscan
    obtain ⟨hknown, hbefore, hlimit⟩ := scanHeader_known hheader
    obtain ⟨data, hdata, hframed, htold⟩ := afterHeader_framed hknown hlimit hbody
    refine ⟨data, hbefore ▸ hdata, hframed, fun huntold => absurd huntold htold, ?_⟩
    rintro ⟨p, left, hwait⟩
    rw [hread] at hwait
    cases hwait
  · obtain ⟨data, hdata, hframed, huntold⟩ := scanToEnd_framed hend
    exact ⟨data, hdata, hframed, iff_of_true huntold hwaits⟩

/- The length is given twice, and again in another field; the body is cut by a chunk. -/
theorem delivered_framed_lengths :
    let chunks := ["content-length: 2\r\n\r\nh".toList, "i".toList]
    let r : Response := ⟨200, 11, [],
      [("Content-Length".toList, "2, 2".toList), ("content-length".toList, "2".toList)],
      "hi".toList⟩
    ∃ data, r.body = (default : Response).body ++ data ∧ Framed r data ∧
      (Untold r ↔ ∃ p left, asyncRead default "HTTP/1.1 200 \r\nContent-Length:2, 2\r\n".toList
        chunks = (.waiting p left, [])) :=
  delivered_framed (show asyncReadToEnd _ _ _ = (.delivered _ [], []) by decide +kernel)

end RestClient.ResponseParser
