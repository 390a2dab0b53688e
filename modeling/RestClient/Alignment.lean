import RestClient.Delivery

/-!
# Responses and requests under HTTP/1.1

A server answers each request it was sent with interim responses and one final
response. `OnRead` takes a ring entry for every message read, the interim ones
included. Answers and requests stay aligned exactly as long as a message finds
an entry if and only if it is final.
-/

namespace RestClient
open Machine
variable {HandlerType : Type}

/- How a server answers its requests, counted from 0. -/
structure Server where
  interim : ℕ → List HttpResponse
  final : ℕ → HttpResponse
  interim_class : ∀ k, ∀ r ∈ interim k, r.interim = true ∧ r.body = []
  final_class : ∀ k, (final k).interim = false

namespace Server

/- The answers to the first `w` requests. -/
def answers (v : Server) (w : ℕ) : List HttpResponse :=
  (List.range w).flatMap fun k => v.interim k ++ [v.final k]

theorem answers_succ (v : Server) (w : ℕ) :
    v.answers (w + 1) = v.answers w ++ v.interim w ++ [v.final w] := by
  unfold answers
  rw [List.range_succ, List.flatMap_append, List.flatMap_singleton, List.append_assoc]

end Server

/- The final responses among those read. -/
def finals (rs : List HttpResponse) : List HttpResponse := rs.filter fun r => !r.interim

theorem finals_append (rs rs' : List HttpResponse) :
    finals (rs ++ rs') = finals rs ++ finals rs' := List.filter_append ..

theorem finals_interim (v : Server) (k : ℕ) : finals (v.interim k) = [] := by
  unfold finals
  rw [List.filter_eq_nil_iff]
  intro r hr
  simp [(v.interim_class k r hr).1]

theorem finals_answers (v : Server) (w : ℕ) :
    finals (v.answers w) = (List.range w).map v.final := by
  induction w with
  | zero => rfl
  | succ w ih =>
    have hfinal : finals [v.final w] = [v.final w] := by simp [finals, v.final_class w]
    rw [v.answers_succ, finals_append, finals_append, ih, finals_interim, hfinal,
      List.range_succ, List.map_append, List.append_nil]
    rfl

/- Every message of the answers to `w` requests comes before or with the last
final response. -/
theorem finals_lt_of_prefix (v : Server) {w : ℕ} {rs : List HttpResponse} {r : HttpResponse}
    (h : rs ++ [r] <+: v.answers w) : (finals rs).length < w := by
  cases w with
  | zero => simp [Server.answers] at h
  | succ w =>
    rw [v.answers_succ] at h
    have hrs : rs <+: v.answers w ++ v.interim w := by
      have hlen := h.length_le
      simp only [List.length_append, List.length_singleton] at hlen
      have hall : rs <+: v.answers w ++ v.interim w ++ [v.final w] :=
        (List.prefix_append rs [r]).trans h
      exact List.prefix_of_prefix_length_le hall (List.prefix_append _ _)
        (by simp only [List.length_append]; omega)
    obtain ⟨rest, hrest⟩ := hrs
    have hfinals : finals (rs ++ rest) = (List.range w).map v.final := by
      rw [hrest, finals_append, finals_answers, finals_interim, List.append_nil]
    have hlength := congrArg List.length hfinals
    rw [finals_append, List.length_append, List.length_map, List.length_range] at hlength
    omega

/- The next final response is the answer to the next request. -/
theorem final_eq_of_prefix (v : Server) {w : ℕ} {rs : List HttpResponse} {r : HttpResponse}
    (h : rs ++ [r] <+: v.answers w) (hr : r.interim = false) : r = v.final (finals rs).length := by
  have hlt := finals_lt_of_prefix v h
  obtain ⟨rest, hrest⟩ := h
  have hlast : finals [r] = [r] := by simp [finals, hr]
  have hfinals := finals_answers v w
  rw [← hrest, finals_append, finals_append, hlast, List.append_assoc] at hfinals
  have hread : (finals rs ++ ([r] ++ finals rest))[(finals rs).length]? = some r := by
    rw [List.getElem?_append_right (Nat.le_refl _), Nat.sub_self]
    rfl
  have hanswer : ((List.range w).map v.final)[(finals rs).length]? =
      some (v.final (finals rs).length) := by
    rw [List.getElem?_map, List.getElem?_range hlt]
    rfl
  rw [hfinals, hanswer] at hread
  exact (Option.some.inj hread).symm

namespace Client

/- What was read is the beginning of the answers to the requests written. -/
def Answered (v : Server) (log : List (Event HandlerType)) : Prop :=
  responsesRead log <+: v.answers (handed log).length

instance (v : Server) (log : List (Event HandlerType)) : Decidable (Answered v log) :=
  inferInstanceAs (Decidable (_ <+: _))

/- The callback of request `k` got the final response `k` and there is one call
for each final response read. -/
structure Aligned (v : Server) (log : List (Event HandlerType)) : Prop where
  answer : ∀ k i, (invoked log)[k]? = some i →
    (accepted log)[k]? = some i.call ∧ i.result = (v.final k).status ∧ i.data = (v.final k).body
  complete : (invoked log).length = (finals (responsesRead log)).length

/- A message read finds a ring entry if and only if it is final. -/
def EntryIffFinal (s : Client HandlerType) (a : Action HandlerType) : Prop :=
  ∀ response, a = .onRead 0 response →
    (s.mRequest.mReadPos < s.mRequest.mWritePos ↔ response.interim = false)

/- The answers to the earlier requests stay what they were. -/
theorem aligned_extend {v : Server} {s : Client HandlerType} {log es : List (Event HandlerType)}
    (h : Aligned v log) (hacc : Accounted s (log ++ es))
    (hnew : ∀ i, invoked es = [i] →
      i.result = (v.final (invoked log).length).status ∧
      i.data = (v.final (invoked log).length).body)
    (hone : (invoked es).length ≤ 1)
    (hcomplete : (invoked es).length = (finals (responsesRead es)).length) :
    Aligned v (log ++ es) := by
  refine ⟨?_, ?_⟩
  · intro k i hk
    refine ⟨hacc.call_at hk, ?_⟩
    rw [invoked_append] at hk
    rcases Nat.lt_or_ge k (invoked log).length with hlt | hge
    · rw [List.getElem?_append_left hlt] at hk
      exact (h.answer k i hk).2
    · rw [List.getElem?_append_right hge] at hk
      have hin := (List.getElem?_eq_some_iff.mp hk).1
      obtain ⟨j, hj⟩ := List.length_eq_one_iff.mp (by omega : (invoked es).length = 1)
      have hfirst : k = (invoked log).length := by omega
      rw [hj, hfirst, Nat.sub_self] at hk
      cases hk
      rw [hfirst]
      exact hnew i hj
  · rw [invoked_append, responsesRead_append, finals_append, List.length_append,
      List.length_append, h.complete, hcomplete]

theorem aligned_step {v : Server} {s s' : Client HandlerType} {log es : List (Event HandlerType)}
    {a : Action HandlerType} (hacc : Accounted s log) (hacc' : Accounted s' (log ++ es))
    (hserver : Answered v (log ++ es)) (h : Aligned v log) (hok : EntryIffFinal s a)
    (hs : step s a = some (s', es)) : Aligned v (log ++ es) := by
  by_cases ha : ∃ response, a = .onRead 0 response
  · obtain ⟨response, rfl⟩ := ha
    have hread := responsesRead_of_read hs
    have hgot := delivered_of_read hacc hs
    have hentry := hok response rfl
    by_cases hne : s.mRequest.mReadPos < s.mRequest.mWritePos
    · rw [if_pos hne] at hgot
      obtain ⟨req, hdl, rest, _, hinvoked⟩ := hgot
      have hfinal := hentry.mp hne
      have hanswer : response = v.final (invoked log).length := by
        unfold Answered at hserver
        rw [responsesRead_append, hread] at hserver
        rw [h.complete]
        exact final_eq_of_prefix v hserver hfinal
      refine aligned_extend h hacc' ?_ (by rw [hinvoked]; exact Nat.le_refl 1) ?_
      · intro i hi
        rw [hinvoked] at hi
        cases hi
        rw [← hanswer]
        exact ⟨rfl, rfl⟩
      · rw [hinvoked, hread]
        simp [finals, hfinal]
    · rw [if_neg hne] at hgot
      have hinterim : response.interim = true := by
        have hmore := mt hentry.mpr hne
        simpa using hmore
      refine aligned_extend h hacc' ?_ (by rw [hgot.2]; exact Nat.zero_le 1) ?_
      · intro i hi
        rw [hgot.2] at hi
        cases hi
      · rw [hgot.2, hread]
        simp [finals, hinterim]
  · obtain ⟨hread, hinvoked⟩ := quiet_of_not_read (fun r hr => ha ⟨r, hr⟩) hs
    refine aligned_extend h hacc' ?_ (by rw [hinvoked]; exact Nat.zero_le 1) ?_
    · intro i hi
      rw [hinvoked] at hi
      cases hi
    · rw [hinvoked, hread]
      rfl

/- A message that finds an entry without being final, or is final and finds none,
destroys the alignment. -/
theorem entryIffFinal_of_aligned {v : Server} {s s' : Client HandlerType}
    {log es : List (Event HandlerType)} {a : Action HandlerType} (hacc : Accounted s log)
    (h : Aligned v log) (hs : step s a = some (s', es)) (h' : Aligned v (log ++ es)) :
    EntryIffFinal s a := by
  intro response ha
  subst ha
  have hread := responsesRead_of_read hs
  have hgot := delivered_of_read hacc hs
  have hcount := h'.complete
  rw [invoked_append, responsesRead_append, hread, finals_append, List.length_append,
    List.length_append, h.complete] at hcount
  by_cases hne : s.mRequest.mReadPos < s.mRequest.mWritePos
  · rw [if_pos hne] at hgot
    obtain ⟨req, hdl, rest, _, hinvoked⟩ := hgot
    rw [hinvoked] at hcount
    cases hi : response.interim with
    | false => simp [hne]
    | true => simp [finals, hi] at hcount
  · rw [if_neg hne] at hgot
    rw [hgot.2] at hcount
    cases hi : response.interim with
    | false => simp [finals, hi] at hcount
    | true => simp [hne]

/-- Against a server that answers every request written, in order, with interim
responses and one final response: callbacks and final responses stay aligned
throughout a run if and only if each message read finds a ring entry exactly when
it is final. -/
theorem aligned_iff_entryIffFinal [Inhabited HandlerType] (mHost : Str) (v : Server)
    (as : List (Action HandlerType))
    (hserver : Always step (initial mHost : Client HandlerType) as fun _ log => Answered v log) :
    (Always step (initial mHost : Client HandlerType) as fun _ log => Aligned v log) ↔
      EachStep step (initial mHost : Client HandlerType) as fun s _ a => EntryIffFinal s a := by
  have hknown : Always step (initial mHost : Client HandlerType) as
      fun s log => Accounted s log ∧ Answered v log :=
    fun pre s log hp hr => ⟨accounted_of_run hr, hserver pre s log hp hr⟩
  have hstart : Aligned v ([] : List (Event HandlerType)) :=
    ⟨fun k i hk => by simp [invoked] at hk, rfl⟩
  refine always_iff_eachStep _ _ _ hknown hstart ?_ ?_
  · intro s log a s' es hi hi' h hok hs
    exact aligned_step hi.1 hi'.1 hi'.2 h hok hs
  · intro s log a s' es hi hi' h hs h'
    exact entryIffFinal_of_aligned hi.1 h hs h'

/- Two answers without interim responses, to two requests in flight. -/
def plainServer : Server where
  interim _ := []
  final k := ⟨200, if k = 0 then "a".toList else "b".toList⟩
  interim_class _ r hr := by cases hr
  final_class _ := by simp [HttpResponse.interim]

def twoAnswers : List (Action ℕ) :=
  startUp ++ [.asyncRequest "/ping".toList 1, .asyncRequest "/time".toList 2, .execRequest,
    .execRequest, .onRead 0 ⟨200, "a".toList⟩, .callbackReturn, .onRead 0 ⟨200, "b".toList⟩]

/- The condition, decided. -/
def entryIffFinal (s : Client HandlerType) : Action HandlerType → Bool
  | .onRead _ response => decide (s.mRequest.mReadPos < s.mRequest.mWritePos) == !response.interim
  | _ => true

theorem entryIffFinal_sound {s : Client HandlerType} {a : Action HandlerType}
    (h : entryIffFinal s a = true) : EntryIffFinal s a := by
  intro response ha
  subst ha
  cases hi : response.interim <;> simpa [entryIffFinal, hi] using h

theorem aligned_two_answers :
    Always step (initial "h".toList : Client ℕ) twoAnswers
      fun _ log => Aligned plainServer log := by
  have hserver : checkAlways step (fun (_ : Client ℕ) log => decide (Answered plainServer log))
      (initial "h".toList) [] twoAnswers = true := by decide +kernel
  have heach : checkEach step entryIffFinal (initial "h".toList : Client ℕ) twoAnswers = true := by
    decide +kernel
  refine (aligned_iff_entryIffFinal _ plainServer twoAnswers ?_).mpr ?_
  · intro pre s log hp hr
    exact of_decide_eq_true (always_of_check hserver pre s log hp hr)
  · intro pre a s log hp hr hs
    exact entryIffFinal_sound (eachStep_of_check heach pre a s log hp hr hs)

/- Without a wrap of the positions the condition is that no interim response is read. -/
theorem entryIffFinal_iff_final {v : Server} {s s' : Client HandlerType}
    {log es : List (Event HandlerType)} {response : HttpResponse} (hacc : Accounted s log)
    (h : Aligned v log) (hcount : (accepted log).length < 2 ^ 64)
    (hserver : Answered v (log ++ es)) (hs : step s (.onRead 0 response) = some (s', es)) :
    EntryIffFinal s (.onRead 0 response) ↔ response.interim = false := by
  have hnone : handed es = [] := by
    cases move_of_step hs with
    | readFailed ec response hc hr he => contradiction
    | deliver => rfl
    | unsolicited => rfl
  have hnext : (finals (responsesRead log)).length < (handed log).length := by
    unfold Answered at hserver
    rw [responsesRead_append, responsesRead_of_read hs, handed_append, hnone,
      List.append_nil] at hserver
    exact finals_lt_of_prefix v hserver
  have hne : s.mRequest.mReadPos < s.mRequest.mWritePos := by
    rw [hacc.ring.positions.nonempty_iff hcount, h.complete, ← hacc.handed_length]
    exact hnext
  constructor
  · intro hok
    exact (hok response rfl).mp hne
  · intro hfinal r hr
    cases hr
    exact ⟨fun _ => hfinal, fun _ => hne⟩

/-- With fewer than `2 ^ 64` requests the condition is that no interim response is read. -/
theorem aligned_iff_no_interim [Inhabited HandlerType] (mHost : Str) (v : Server)
    (as : List (Action HandlerType))
    (hserver : Always step (initial mHost : Client HandlerType) as fun _ log => Answered v log)
    (hcount : Always step (initial mHost : Client HandlerType) as
      fun _ log => (accepted log).length < 2 ^ 64) :
    (Always step (initial mHost : Client HandlerType) as fun _ log => Aligned v log) ↔
      EachStep step (initial mHost : Client HandlerType) as
        fun _ _ a => ∀ response, a = .onRead 0 response → response.interim = false := by
  have hknown : Always step (initial mHost : Client HandlerType) as
      fun s log => Accounted s log ∧ Answered v log ∧ (accepted log).length < 2 ^ 64 :=
    fun pre s log hp hr =>
      ⟨accounted_of_run hr, hserver pre s log hp hr, hcount pre s log hp hr⟩
  have hstart : Aligned v ([] : List (Event HandlerType)) :=
    ⟨fun k i hk => by simp [invoked] at hk, rfl⟩
  refine always_iff_eachStep _ _ _ hknown hstart ?_ ?_
  · intro s log a s' es hi hi' h hok hs
    refine aligned_step hi.1 hi'.1 hi'.2.1 h ?_ hs
    intro response ha
    subst ha
    exact (entryIffFinal_iff_final hi.1 h hi.2.2 hi'.2.1 hs).mpr (hok response rfl) response rfl
  · intro s log a s' es hi hi' h hs h' response ha
    subst ha
    have hentry := entryIffFinal_of_aligned hi.1 h hs h'
    exact (entryIffFinal_iff_final hi.1 h hi.2.2 hi'.2.1 hs).mp hentry

/- An answer with 103 (early hints) before the final response. -/
def hintingServer : Server where
  interim _ := [⟨103, []⟩]
  final _ := ⟨200, "pong".toList⟩
  interim_class _ r hr := by
    cases List.mem_singleton.mp hr
    exact ⟨rfl, rfl⟩
  final_class _ := rfl

/-- One request: its callback gets status 103 and an empty body, and the final
response no callback. -/
theorem interim_misaligned :
    ∃ (as : List (Action ℕ)) (s : Client ℕ) (log : List (Event ℕ)),
      (Always step (initial "h".toList : Client ℕ) as fun _ log => Answered hintingServer log) ∧
      Run step (initial "h".toList) as s log ∧
      invoked log = [⟨1, [], 103, "/ping".toList⟩] ∧ ¬ Aligned hintingServer log := by
  let as : List (Action ℕ) := startUp ++
    [.asyncRequest "/ping".toList 1, .execRequest, .onRead 0 ⟨103, []⟩, .callbackReturn,
      .onRead 0 ⟨200, "pong".toList⟩]
  have hserver : checkAlways step (fun (_ : Client ℕ) log => decide (Answered hintingServer log))
      (initial "h".toList) [] as = true := by decide +kernel
  obtain ⟨s, log, hr, hinvoked⟩ := run_of_observed step (initial "h".toList : Client ℕ) as
    (fun r => invoked r.2)
    (show _ = some [⟨1, [], 103, "/ping".toList⟩] by decide +kernel)
  refine ⟨as, s, log, ?_, hr, hinvoked, ?_⟩
  · intro pre s log hp hr
    exact of_decide_eq_true (always_of_check hserver pre s log hp hr)
  · intro haligned
    have hstatus := (haligned.answer 0 ⟨1, [], 103, "/ping".toList⟩ (by rw [hinvoked]; rfl)).2.1
    simp [hintingServer] at hstatus

end Client
end RestClient
