import RestClient.SessionAccounts

/-!
# The read loop

`OnHandshake` starts the first read, and every way through `OnRead` but that of an
error starts the next one: at once when no request is waiting, otherwise after the
callback. Before each read `Handler::Read` resets the message it reads into.
-/

namespace RestClient.Client
open Machine
variable {HandlerType : Type}

/- The error codes of the reads that failed. -/
def readFailures (log : List (Event HandlerType)) : List ErrorCode :=
  log.filterMap fun e =>
    match e with
    | .errorHandled ctx error => if ctx = "OnRead".toList then some error else none
    | _ => none

@[simp] theorem readFailures_append (log es : List (Event HandlerType)) :
    readFailures (log ++ es) = readFailures log ++ readFailures es := List.filterMap_append

theorem readFailures_nil {log es : List (Event HandlerType)} (h : readFailures log = [])
    (he : readFailures es = []) : readFailures (log ++ es) = [] := by
  rw [readFailures_append, h, he]
  rfl

theorem setupDone_mono {log : List (Event HandlerType)} {op : SetupStep}
    (h : op ∈ setupDone log) (es : List (Event HandlerType)) : op ∈ setupDone (log ++ es) := by
  rw [setupDone_append]
  exact List.mem_append_left _ h

/- The callback of the last response read is the last one invoked, with that response. -/
def Passed (s : Client HandlerType) (log : List (Event HandlerType)) : Prop :=
  ∃ response i, (responsesRead log).getLast? = some response ∧
    (invoked log).getLast? = some i ∧ i.data = response.body ∧ i.result = response.status ∧
    s.mHttpResult = response

/- Where the read loop stands. -/
inductive Reading (s : Client HandlerType) (log : List (Event HandlerType)) : Prop
  | before (hn : s.mSessionReady = false) (hr : s.reads = 0) (hi : s.inCallback = false)
      (hd : .handshake ∉ setupDone log) (hf : readFailures log = [])
  | waiting (hn : s.mSessionReady = true) (hr : s.reads = 1) (hi : s.inCallback = false)
      (hd : .handshake ∈ setupDone log) (hf : readFailures log = [])
      (hm : s.mHttpResult = default)
  | calling (hn : s.mSessionReady = true) (hr : s.reads = 0) (hi : s.inCallback = true)
      (hd : .handshake ∈ setupDone log) (hf : readFailures log = []) (hp : Passed s log)
  | failed (hn : s.mSessionReady = true) (hr : s.reads = 0) (hi : s.inCallback = false)
      (hd : .handshake ∈ setupDone log) (hf : readFailures log ≠ []) (hs : s.stopped = true)

/- The set-up is serial, and over when the session is ready. -/
structure Serial (s : Client HandlerType) : Prop where
  single : s.setup.length ≤ 1
  unrun : s.runReturned = false → s.setup = [] ∧ s.mSessionReady = false
  ready : s.mSessionReady = true → s.setup = []

theorem Serial.outstanding {s : Client HandlerType} (h : Serial s) {op : SetupStep}
    (ho : op ∈ s.setup) :
    s.setup.erase op = [] ∧ s.mSessionReady = false ∧ s.runReturned = true := by
  have hne : s.setup ≠ [] := List.ne_nil_of_mem ho
  have hone : s.setup = [op] := by
    obtain ⟨a, ha⟩ := List.length_eq_one_iff.mp
      (Nat.le_antisymm h.single (List.length_pos_of_ne_nil hne))
    rw [ha] at ho ⊢
    rw [List.mem_singleton.mp ho]
  refine ⟨by simp [hone], ?_, ?_⟩
  · exact Bool.eq_false_of_not_eq_true fun hn => hne (h.ready hn)
  · exact Bool.eq_true_of_not_eq_false fun hr => hne (h.unrun hr).1

/- One operation of the set-up is over and at most one takes its place. -/
theorem Serial.next {s s' : Client HandlerType} {op : SetupStep} (h : Serial s)
    (ho : op ∈ s.setup) (hl : s'.setup.length ≤ (s.setup.erase op).length + 1)
    (hn : s'.mSessionReady = s.mSessionReady) (hr : s'.runReturned = s.runReturned) :
    Serial s' := by
  obtain ⟨hempty, hn₀, hr₀⟩ := h.outstanding ho
  rw [hempty] at hl
  refine ⟨hl, fun hr' => ?_, fun hn' => ?_⟩
  · exact absurd (hr'.symm.trans (hr.trans hr₀)) Bool.false_ne_true
  · exact absurd ((hn.trans hn₀).symm.trans hn') Bool.false_ne_true

theorem serial_step {s s' : Client HandlerType} {es : List (Event HandlerType)}
    {a : Action HandlerType} (h : Serial s) (hs : step s a = some (s', es)) : Serial s' := by
  cases move_of_step hs with
  | hostNameFailed hr => exact ⟨h.single, (fun hr' => by cases hr'), h.ready⟩
  | hostNameSet hr =>
    obtain ⟨hempty, hn⟩ := h.unrun hr
    refine ⟨?_, (fun hr' => by cases hr'), ?_⟩
    · simp [hempty]
    · intro hn'
      exact absurd (hn.symm.trans hn') Bool.false_ne_true
  | setupFailed op ec ctx hc ho he =>
    obtain ⟨hempty, hn, hr⟩ := h.outstanding ho
    exact ⟨by simp [hempty], fun _ => ⟨hempty, hn⟩, fun _ => hempty⟩
  | resolved hc ho => exact h.next ho (by simp) rfl rfl
  | connected hc ho => exact h.next ho (by simp) rfl rfl
  | handshaken hc ho =>
    obtain ⟨hempty, hn, hr⟩ := h.outstanding ho
    refine ⟨by simp [hempty], fun hr' => ?_, fun _ => hempty⟩
    exact absurd (hr'.symm.trans hr) Bool.false_ne_true
  | _ => exact ⟨h.single, h.unrun, h.ready⟩

theorem initial_serial [Inhabited HandlerType] (mHost : Str) :
    Serial (initial mHost : Client HandlerType) :=
  ⟨Nat.zero_le 1, fun _ => ⟨rfl, rfl⟩, fun _ => rfl⟩

/-! ### One step of the read loop -/

/- What the read loop looks at. -/
def readView (s : Client HandlerType) : Bool × ℕ × Bool × HttpResponse :=
  (s.mSessionReady, s.reads, s.inCallback, s.mHttpResult)

/- Events of which the read loop shows nothing. -/
structure Unread (es : List (Event HandlerType)) : Prop where
  handshake : .handshake ∉ setupDone es
  failures : readFailures es = []
  responses : responsesRead es = []
  calls : invoked es = []

theorem reading_quiet {s s' : Client HandlerType} {log es : List (Event HandlerType)}
    (h : Reading s log) (hv : readView s' = readView s) (he : Unread es)
    (hs : s.stopped = true → s'.stopped = true) : Reading s' (log ++ es) := by
  obtain ⟨hn, hv⟩ := Prod.mk.inj hv
  obtain ⟨hr, hv⟩ := Prod.mk.inj hv
  obtain ⟨hi, hm⟩ := Prod.mk.inj hv
  have hfailures : readFailures (log ++ es) = readFailures log := by
    rw [readFailures_append, he.failures, List.append_nil]
  have hkept : SetupStep.handshake ∈ setupDone log → .handshake ∈ setupDone (log ++ es) :=
    fun hd => setupDone_mono hd es
  cases h with
  | before hn₀ hr₀ hi₀ hd₀ hf₀ =>
    refine .before (hn.trans hn₀) (hr.trans hr₀) (hi.trans hi₀) ?_ (hfailures.trans hf₀)
    rw [setupDone_append]
    intro hd
    exact (List.mem_append.mp hd).elim hd₀ he.handshake
  | waiting hn₀ hr₀ hi₀ hd₀ hf₀ hm₀ =>
    exact .waiting (hn.trans hn₀) (hr.trans hr₀) (hi.trans hi₀) (hkept hd₀) (hfailures.trans hf₀)
      (hm.trans hm₀)
  | calling hn₀ hr₀ hi₀ hd₀ hf₀ hp₀ =>
    refine .calling (hn.trans hn₀) (hr.trans hr₀) (hi.trans hi₀) (hkept hd₀)
      (hfailures.trans hf₀) ?_
    obtain ⟨response, i, hlast, hcall, hdata, hresult, hm₀⟩ := hp₀
    refine ⟨response, i, ?_, ?_, hdata, hresult, hm.trans hm₀⟩
    · rw [responsesRead_append, he.responses, List.append_nil, hlast]
    · rw [invoked_append, he.calls, List.append_nil, hcall]
  | failed hn₀ hr₀ hi₀ hd₀ hf₀ hs₀ =>
    refine .failed (hn.trans hn₀) (hr.trans hr₀) (hi.trans hi₀) (hkept hd₀) ?_ (hs hs₀)
    rw [hfailures]
    exact hf₀

/- A read is outstanding only while the loop waits. -/
theorem Reading.of_reads {s : Client HandlerType} {log : List (Event HandlerType)}
    (h : Reading s log) (hr : 0 < s.reads) :
    s.mSessionReady = true ∧ s.reads = 1 ∧ .handshake ∈ setupDone log ∧
      readFailures log = [] ∧ s.mHttpResult = default := by
  cases h with
  | waiting hn hr₀ hi hd hf hm => exact ⟨hn, hr₀, hd, hf, hm⟩
  | before _ hr₀ => omega
  | calling _ hr₀ => omega
  | failed _ hr₀ => omega

theorem Reading.of_inCallback {s : Client HandlerType} {log : List (Event HandlerType)}
    (h : Reading s log) (hi : s.inCallback = true) :
    s.mSessionReady = true ∧ s.reads = 0 ∧ .handshake ∈ setupDone log ∧ readFailures log = [] := by
  cases h with
  | calling hn hr _ hd hf => exact ⟨hn, hr, hd, hf⟩
  | before _ _ hi₀ => exact absurd (hi₀.symm.trans hi) Bool.false_ne_true
  | waiting _ _ hi₀ => exact absurd (hi₀.symm.trans hi) Bool.false_ne_true
  | failed _ _ hi₀ => exact absurd (hi₀.symm.trans hi) Bool.false_ne_true

theorem Reading.of_unready {s : Client HandlerType} {log : List (Event HandlerType)}
    (h : Reading s log) (hn : s.mSessionReady = false) :
    s.reads = 0 ∧ s.inCallback = false ∧ readFailures log = [] := by
  cases h with
  | before _ hr hi _ hf => exact ⟨hr, hi, hf⟩
  | waiting hn₀ => exact absurd (hn.symm.trans hn₀) Bool.false_ne_true
  | calling hn₀ => exact absurd (hn.symm.trans hn₀) Bool.false_ne_true
  | failed hn₀ => exact absurd (hn.symm.trans hn₀) Bool.false_ne_true

/- The handlers of the set-up report under names of their own. -/
theorem unread_setupFailed {s s' : Client HandlerType} {op : SetupStep} {ec : ErrorCode}
    {es : List (Event HandlerType)} (he : ec ≠ 0)
    (hs : step s (.setupDone op ec) = some (s', es)) : Unread es := by
  obtain ⟨-, hs⟩ := Option.ite_none_right_eq_some.mp hs
  cases op with
  | hostName => cases hs
  | resolve =>
    simp only [setupHandler, Session.onResolve, if_pos he] at hs
    cases hs
    exact ⟨List.not_mem_nil, rfl, rfl, rfl⟩
  | connect =>
    simp only [setupHandler, Session.onConnect, if_pos he] at hs
    cases hs
    exact ⟨List.not_mem_nil, rfl, rfl, rfl⟩
  | handshake =>
    simp only [setupHandler, Session.onHandshake, if_pos he] at hs
    cases hs
    exact ⟨List.not_mem_nil, rfl, rfl, rfl⟩

theorem reading_step {s s' : Client HandlerType} {log es : List (Event HandlerType)}
    {a : Action HandlerType} (h : Reading s log) (hser : Serial s) (ha : a ≠ .callbackThrow)
    (hs : step s a = some (s', es)) : Reading s' (log ++ es) := by
  cases move_of_step hs with
  | callbackThrow => exact absurd rfl ha
  | hostNameSet hr => exact reading_quiet h rfl ⟨by simp [setupDone], rfl, rfl, rfl⟩ id
  | setupFailed op ec ctx hc ho he =>
    exact reading_quiet h rfl (unread_setupFailed he hs) fun _ => rfl
  | resolved hc ho => exact reading_quiet h rfl ⟨by simp [setupDone], rfl, rfl, rfl⟩ id
  | connected hc ho => exact reading_quiet h rfl ⟨by simp [setupDone], rfl, rfl, rfl⟩ id
  | handshaken hc ho =>
    obtain ⟨-, hn, -⟩ := hser.outstanding ho
    obtain ⟨hr, hi, hf⟩ := h.of_unready hn
    refine .waiting rfl (congrArg (· + 1) hr) hi ?_ (readFailures_nil hf rfl) rfl
    rw [setupDone_append]
    exact List.mem_append_right _ (List.mem_singleton_self _)
  | readFailed ec response hc hr he =>
    obtain ⟨hn, hone, hd, hf, -⟩ := h.of_reads hr
    refine .failed hn (by show s.reads - 1 = 0; omega) hc.2.2 (setupDone_mono hd _) ?_ rfl
    rw [readFailures_append]
    exact List.append_ne_nil_of_right_ne_nil _ (List.cons_ne_nil _ _)
  | deliver response mRequest req hdl hc hr hg =>
    obtain ⟨hn, hone, hd, hf, -⟩ := h.of_reads hr
    refine .calling hn (by show s.reads - 1 = 0; omega) rfl (setupDone_mono hd _)
      (readFailures_nil hf rfl) ?_
    refine ⟨response, ⟨hdl, response.body, response.status, req.target⟩, ?_, ?_, rfl, rfl, rfl⟩
    · rw [responsesRead_append]
      exact List.getLast?_concat
    · rw [invoked_append]
      exact List.getLast?_concat
  | unsolicited response hc hr hg =>
    obtain ⟨hn, hone, hd, hf, -⟩ := h.of_reads hr
    exact .waiting hn (by show s.reads - 1 + 1 = 1; omega) hc.2.2 (setupDone_mono hd _)
      (readFailures_nil hf rfl) rfl
  | callbackReturn hl hi =>
    obtain ⟨hn, hr, hd, hf⟩ := h.of_inCallback hi
    exact .waiting hn (congrArg (· + 1) hr) rfl (setupDone_mono hd _) (readFailures_nil hf rfl) rfl
  | writeFailed op ec hc ho he =>
    exact reading_quiet h rfl ⟨List.not_mem_nil, rfl, rfl, rfl⟩ fun _ => rfl
  | signal hc hw => exact reading_quiet h rfl ⟨List.not_mem_nil, rfl, rfl, rfl⟩ fun _ => rfl
  | _ => exact reading_quiet h rfl ⟨List.not_mem_nil, rfl, rfl, rfl⟩ id

/-! ### Read discipline -/

structure ReadDiscipline (s : Client HandlerType) (log : List (Event HandlerType)) : Prop where
  before : .handshake ∉ setupDone log → s.reads = 0
  single : s.reads ≤ 1
  alternates : .handshake ∈ setupDone log → readFailures log = [] →
    Xor (s.reads = 1) (s.inCallback = true)
  -- the callback being executed is that of the last response read, which `mHttpResult` still holds
  passed : s.inCallback = true → Passed s log
  -- `Handler::Read`, which resets `mHttpResult`, is only called with no read and no callback
  resets : ∀ a s' es, step s a = some (s', es) → .readStarted ∈ es →
    ∃ t es', t.reads = 0 ∧ t.inCallback = false ∧ s' = (Handler.read t).1 ∧
      es = es' ++ (Handler.read t).2
  kept : ∀ a s' es, step s a = some (s', es) → .readStarted ∉ es →
    (∀ ec response, a ≠ .onRead ec response) → s'.mHttpResult = s.mHttpResult
  calls : ∀ a s' es i, step s a = some (s', es) → i ∈ invoked es →
    ∃ response, a = .onRead 0 response ∧ i.data = response.body ∧ i.result = response.status
  halted : readFailures log ≠ [] → s.reads = 0 ∧ s.inCallback = false ∧
    ∀ a s' es, step s a = some (s', es) → .readStarted ∉ es ∧ invoked es = []

theorem Reading.resets {s s' : Client HandlerType} {log es : List (Event HandlerType)}
    {a : Action HandlerType} (h : Reading s log) (hser : Serial s)
    (hs : step s a = some (s', es)) (hstart : .readStarted ∈ es) :
    ∃ t es', t.reads = 0 ∧ t.inCallback = false ∧ s' = (Handler.read t).1 ∧
      es = es' ++ (Handler.read t).2 := by
  cases move_of_step hs with
  | handshaken hc ho =>
    obtain ⟨-, hn, -⟩ := hser.outstanding ho
    obtain ⟨hr, hi, -⟩ := h.of_unready hn
    exact ⟨{ s with setup := s.setup.erase .handshake, mSessionReady := true },
      [.done .handshake], hr, hi, rfl, rfl⟩
  | unsolicited response hc hr hg =>
    obtain ⟨-, hone, -⟩ := h.of_reads hr
    exact ⟨{ s with reads := s.reads - 1 }, [.responseRead response],
      (by show s.reads - 1 = 0; omega), hc.2.2, rfl, rfl⟩
  | callbackReturn hl hi =>
    obtain ⟨-, hr, -⟩ := h.of_inCallback hi
    exact ⟨{ s with inCallback := false }, [], hr, rfl, rfl, rfl⟩
  | _ => simp at hstart

theorem mHttpResult_kept {s s' : Client HandlerType} {es : List (Event HandlerType)}
    {a : Action HandlerType} (hs : step s a = some (s', es)) (hstart : .readStarted ∉ es)
    (ha : ∀ ec response, a ≠ .onRead ec response) : s'.mHttpResult = s.mHttpResult := by
  cases move_of_step hs with
  | handshaken => simp at hstart
  | callbackReturn => simp at hstart
  | readFailed ec response => exact absurd rfl (ha ec response)
  | deliver response => exact absurd rfl (ha 0 response)
  | unsolicited response => exact absurd rfl (ha 0 response)
  | _ => rfl

theorem invoked_of_step {s s' : Client HandlerType} {es : List (Event HandlerType)}
    {a : Action HandlerType} {i : Invocation HandlerType} (hs : step s a = some (s', es))
    (hi : i ∈ invoked es) :
    ∃ response, a = .onRead 0 response ∧ i.data = response.body ∧ i.result = response.status := by
  cases move_of_step hs with
  | deliver response mRequest req hdl hc hr hg =>
    cases List.mem_singleton.mp hi
    exact ⟨response, rfl, rfl, rfl⟩
  | _ => exact absurd hi List.not_mem_nil

theorem Reading.halted {s : Client HandlerType} {log : List (Event HandlerType)}
    (h : Reading s log) (hf : readFailures log ≠ []) :
    s.reads = 0 ∧ s.inCallback = false ∧
      ∀ a s' es, step s a = some (s', es) → .readStarted ∉ es ∧ invoked es = [] := by
  cases h with
  | before _ _ _ _ hf₀ => exact absurd hf₀ hf
  | waiting _ _ _ _ hf₀ => exact absurd hf₀ hf
  | calling _ _ _ _ hf₀ => exact absurd hf₀ hf
  | failed hn hr hi hd hf₀ hstop =>
    refine ⟨hr, hi, ?_⟩
    intro a s' es hs
    have hidle : ¬ s.canHandle := by
      intro hc
      exact absurd (hc.2.1.symm.trans hstop) Bool.false_ne_true
    cases move_of_step hs with
    | handshaken hc => exact absurd hc hidle
    | deliver _ _ _ _ hc => exact absurd hc hidle
    | unsolicited _ hc => exact absurd hc hidle
    | callbackReturn hl hi' => exact absurd (hi.symm.trans hi') Bool.false_ne_true
    | _ => exact ⟨by simp, rfl⟩

theorem reading_of_run [Inhabited HandlerType] {mHost : Str} {as : List (Action HandlerType)}
    {s : Client HandlerType} {log : List (Event HandlerType)}
    (h : Run step (initial mHost) as s log) (hret : .callbackThrow ∉ as) :
    Reading s log ∧ Serial s := by
  induction h with
  | nil => exact ⟨.before rfl rfl rfl List.not_mem_nil rfl, initial_serial mHost⟩
  | @snoc as s log a s' es hr hs ih =>
    obtain ⟨hread, hser⟩ := ih fun hmem => hret (List.mem_append_left _ hmem)
    have ha : a ≠ .callbackThrow := by
      rintro rfl
      exact hret (List.mem_append_right _ (List.mem_singleton_self _))
    exact ⟨reading_step hread hser ha hs, serial_step hser hs⟩

/-- While callbacks return normally one read is outstanding or its response is being
handled, from the handshake to the first failed read; the message is reset in between. -/
theorem read_discipline [Inhabited HandlerType] (mHost : Str) (as : List (Action HandlerType))
    (s : Client HandlerType) (log : List (Event HandlerType))
    (h : Run step (initial mHost) as s log) (hret : .callbackThrow ∉ as) :
    ReadDiscipline s log := by
  obtain ⟨hread, hser⟩ := reading_of_run h hret
  refine ⟨?_, ?_, ?_, ?_, fun a s' es => hread.resets hser, fun a s' es => mHttpResult_kept,
    fun a s' es i => invoked_of_step, hread.halted⟩
  · intro hd
    by_contra hr
    exact hd (hread.of_reads (Nat.pos_of_ne_zero hr)).2.2.1
  · by_contra hr
    have hone := (hread.of_reads (by omega)).2.1
    omega
  · intro hd hf
    cases hread with
    | before _ _ _ hd₀ => exact absurd hd hd₀
    | waiting _ hr hi => exact .inl ⟨hr, by rw [hi]; exact Bool.false_ne_true⟩
    | calling _ hr hi => exact .inr ⟨hi, by rw [hr]; exact Nat.zero_ne_one⟩
    | failed _ _ _ _ hf₀ => exact absurd hf hf₀
  · intro hi
    cases hread with
    | calling _ _ _ _ _ hp => exact hp
    | before _ _ hi₀ => exact absurd (hi₀.symm.trans hi) Bool.false_ne_true
    | waiting _ _ hi₀ => exact absurd (hi₀.symm.trans hi) Bool.false_ne_true
    | failed _ _ hi₀ => exact absurd (hi₀.symm.trans hi) Bool.false_ne_true

/- A response nobody waits for, then one whose callback issues a request. -/
theorem read_discipline_reentrant :
    ∃ (s : Client ℕ) (log : List (Event ℕ)), s.inCallback = true ∧ s.reads = 0 ∧
      ReadDiscipline s log ∧ Passed s log := by
  let as : List (Action ℕ) := startUp ++
    [.onRead 0 ⟨408, []⟩, .asyncRequest "/ping".toList 1, .execRequest,
      .onRead 0 ⟨200, "a".toList⟩, .asyncRequest "/time".toList 2]
  obtain ⟨s, log, hr, hlog⟩ := run_of_observed step (initial "h".toList : Client ℕ) as
    (fun r => (r.1.inCallback, r.1.reads)) (show _ = some (true, 0) by decide +kernel)
  obtain ⟨hi, hreads⟩ := Prod.mk.inj hlog
  have hdisc := read_discipline _ as s log hr (by decide)
  exact ⟨s, log, hi, hreads, hdisc, hdisc.passed hi⟩

end RestClient.Client
